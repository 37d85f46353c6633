import Mcpq.Kernel.Anchors

/-!
# Locks of anchors

A page is unlocked when it is unlinked, and when its chain is broken or released. It is not when
another page replaces it as the anchor, nor when the exit of the task frees the chain; and a page that
is freed loses its lock before it is checked, so that an anchor that is bad stays one without it. In
the runs without these, the locks of the anchors are balanced (`anchors_balanced`).
-/

namespace Mcpq.Kernel

/-! ## Runs -/

namespace Op

/-- The address 0 is not visited by a call that links a range, for which it is the address of no
    anchor, and the rest of the kernel does not lock pages. -/
def LeavesLocks (s : Mm) : Op → Prop
  | linkAddrRng vmas _ _ _ start len => 0 ∉ Mm.rangeAddrs vmas (Mm.pageMask start)
      (Mm.pageAlign ((len + start % Mm.pageSize) % Mm.addressSpace))
  | other page _ => ∀ p, (page p).testBit .mlocked = s.locked p
  | _ => True

/-- Execute an operation, where a page is freed by `free_hot_cold_page`. -/
def run [Mlock] (s : Mm) : Op → Result Mm
  | freePage p => s.freeHotColdPage p
  | op => op.exec s

/-- The condition on the operations: a chain with an anchor is not given another one, no anchor that
    is bad is freed, and the chains of a task that exits have no anchors. -/
def Balances (s : Mm) : Op → Prop
  | anchor vmas lookup tsk c addr => ∀ mcc chain q, s.chainOf tsk c = .ok (some (mcc, chain)) →
      s.anchorOf chain = some q →
      Mm.pageMask addr ∈ Mm.rangeAddrs vmas (Mm.pageMask addr) (Mm.anchorLen addr) →
      ∀ p, lookup (Mm.pageMask addr) = some p → p = q
  | freePage p => ∀ c, s.anchorOf c = some p → s.freesUnlocked p = true
  | doExit tsk => ∀ mcc c, s.mcc tsk = some mcc → some c ∈ mcc.chains → s.anchorOf c = none
  | _ => True

end Op

/-- An operation that runs to completion, where only the chain code locks pages. -/
structure LockStep [Mlock] (s : Mm) (op : Op) (s' : Mm) : Prop where
  admissible : op.Admissible s
  leaves : op.LeavesLocks s
  completes : op.run s = .ok s'

/-- The runs of the operations, from a memory without chains and without locks. -/
def AnchorSystem [Mlock] : Transition Mm Op where
  init s := System.init s ∧ ∀ p, s.allocated p = true → s.locked p = false
  step := LockStep

namespace Mm

variable {s s' : Mm} {p : PageRef} {op : Op} [PageLock]

theorem Covers.lockStep (h : s.Covers) (hst : LockStep s op s') : s'.Covers := by
  obtain ⟨hadm, -, heq⟩ := hst
  cases op with
  | freePage p =>
    have hflag := h.1.modifyPage (p := p) (f := (·.clearBit .mlocked)) rfl
    have hbit : ((s.page p).clearBit .mlocked).referenced = s.bit p := by
      simp [Page.referenced, bit]
    have hcov : (s.modifyPage p (·.clearBit .mlocked)).Covers := ⟨hflag.1, fun d => by
      rw [hflag.2, hbit, sub_self, ite_self, add_zero]
      exact h.2 d⟩
    exact (hcov.step (⟨hadm, heq⟩ : Step (s.modifyPage p (·.clearBit .mlocked)) (.freePage p) s')).1
  | _ => exact (h.step ⟨hadm, heq⟩).1

/-- A range is linked to a chain that has no other anchor than the page visited at the address of the
    anchor. -/
theorem Balanced.doMlinkPages (h : s.Balanced) (hl : s.Linked) {vmas : List Vma}
    {lookup : ℕ → Option PageRef} (halloc : ∀ a p, lookup a = some p → s.allocated p = true)
    {chain : ChainRef} {start len anchor : ℕ} {r : ℤ}
    (hanchor : ∀ q, s.anchorOf chain = some q → anchor ∈ rangeAddrs vmas start len →
      ∀ p, lookup anchor = some p → p = q)
    (heq : s.doMlinkPages vmas lookup chain start len anchor = .ok (s', r)) : s'.Balanced := by
  have hrun := doMlinkPages_ok heq
  rcases mlinkPages_live hl hrun with ⟨-, rfl⟩ | ⟨m, hm⟩
  · exact h
  · refine h.mlinkPages hl hm (fun x hx => halloc x.1 x.2 (mem_found hx).1) (fun q hq p hp => ?_)
      (fun p q hp hq => ?_) hrun
    · obtain ⟨hlook, hvisited⟩ := mem_found hp
      exact hanchor q hq hvisited p hlook
    · exact Option.some.inj ((mem_found hp).1.symm.trans (mem_found hq).1)

/-- The locks stay balanced in an operation that meets the condition. -/
theorem Balanced.step (h : s.Balanced) (hl : s.Linked) (hb : op.Balances s)
    (hst : LockStep s op s') : s'.Balanced := by
  obtain ⟨hadm, hleaves, heq⟩ := hst
  cases op with
  | newMemChain tsk addr =>
    obtain ⟨r, heq⟩ := map_fst_ok heq
    exact h.same (.newMemChain hadm heq)
  | linkAddrRng vmas lookup tsk c start len =>
    obtain ⟨r, heq⟩ := map_fst_ok heq
    rcases linkAddrRng_cases heq with ⟨-, rfl⟩ | ⟨x, -, heq⟩
    · exact h
    · -- No page is visited at the address of the anchor, which is 0.
      exact h.doMlinkPages hl hadm (fun _ _ hvisited => absurd hvisited hleaves) heq
  | anchor vmas lookup tsk c addr =>
    obtain ⟨r, heq⟩ := map_fst_ok heq
    rcases anchor_cases heq with ⟨-, rfl⟩ | ⟨x, r', ho, heq⟩
    · exact h
    · exact h.doMlinkPages hl hadm (hb x.1 x.2 · ho) heq
  | brkMemChain tsk c =>
    obtain ⟨r, heq⟩ := map_fst_ok heq
    rcases brkMemChain_cases heq with ⟨-, rfl⟩ | ⟨x, -, heq⟩
    · exact h
    · exact h.drops hl (unlinkChain_drops heq)
  | rlsMemChain tsk c =>
    obtain ⟨r, heq⟩ := map_fst_ok heq
    rcases rlsMemChain_cases heq with ⟨-, rfl⟩ | ⟨x, s₁, s₂, -, heq₁, heq₂, rfl⟩
    · exact h
    · -- The anchor is unlocked when the pages are unlinked, and the chain is freed without one.
      have hd := (unlinkChain_drops heq₁).kfreeChain heq₂
      exact h.drops hl ⟨hd.anchorOf_eq, hd.locked_eq, hd.allocated_eq⟩
  | freePage p => exact h.freeHotColdPage hl hb heq
  | allocPage p =>
    obtain rfl := Except.ok.inj heq
    exact h.allocPage hl hadm.1
  | markPageAccessed p => exact h.same (.markPageAccessed heq)
  | setPageReferenced p => exact h.same (.setPageReferenced heq)
  | clearPageReferenced p => exact h.same (.clearPageReferenced heq)
  | testClearPageReferenced p =>
    obtain ⟨v, heq⟩ := map_fst_ok heq
    exact h.same (.testClearPageReferenced heq)
  | doExit tsk => exact h.same (.doExit hb heq)
  | other page zone =>
    obtain rfl := Except.ok.inj heq
    exact h.same ⟨rfl, funext hleaves, rfl⟩

theorem lock_reachable_covers {P : Mm → Op → Prop} (hs : AnchorSystem.ReachableBy P s) : s.Covers :=
  hs.invariant (I := Covers) (fun s (hs : AnchorSystem.init s) => reachable_covers (.init hs.1))
    fun _ _ _ hs _ hst => hs.lockStep hst

/-- In the runs whose operations meet the condition, a page that is allocated is locked exactly if it
    is the anchor of a chain. -/
theorem anchors_balanced (hs : AnchorSystem.ReachableBy Op.Balances s) : s.Balanced := by
  refine (hs.invariant (I := fun s => s.Covers ∧ s.Balanced) (fun s hinit => ⟨?_, fun p hp => ?_⟩)
    fun s op s' hs hb hst => ⟨hs.1.lockStep hst, hs.2.step hs.1.1 hb hst⟩).2
  · exact reachable_covers (.init hinit.1)
  · refine iff_of_false ?_ fun ⟨c, hc⟩ => ?_
    · rw [hinit.2 p hp]
      exact Bool.false_ne_true
    · rw [anchorOf, hinit.1.2.1 c] at hc
      cases hc

/-! ## An anchor that is replaced -/

set_option maxRecDepth 8000 in
omit [PageLock] in
/-- A page is anchored, and then another one. -/
theorem reanchored_run : let _ := PageLock.flag
    ∃ s s', AnchorSystem.ReachableBy Op.Balances s ∧ AnchorSystem.Reachable s' ∧
      s.allocated 0 = true ∧ s.anchorOf 7 = some 0 ∧
      s'.allocated 0 = true ∧ s'.locked 0 = true ∧ s'.home 0 = some 7 ∧ s'.anchorOf 7 = some 1 := by
  let _ := PageLock.flag
  have hinit : AnchorSystem.init ({} : Mm) :=
    ⟨⟨fun _ => rfl, fun _ => rfl, fun _ => rfl, fun _ h => nomatch h⟩,
      fun _ hp => Bool.noConfusion hp⟩
  obtain ⟨s, hr, h₀, h₁, ha, s', heq, hs'⟩ : ∃ s, AnchorSystem.RunBy Op.Balances {} [.allocPage 0,
      .allocPage 1, .newMemChain 0 7, .anchor [⟨4096, 12288, false⟩] twoPages 0 0 4096] s ∧
      s.allocated 0 = true ∧ s.allocated 1 = true ∧ s.anchorOf 7 = some 0 ∧
      ∃ s', Op.run s (.anchor [⟨4096, 12288, false⟩] twoPages 0 0 8192) = .ok s' ∧
        s'.allocated 0 = true ∧ s'.locked 0 = true ∧ s'.home 0 = some 7 ∧ s'.anchorOf 7 = some 1 := by
    refine ⟨_, .cons trivial ⟨⟨rfl, by decide⟩, trivial, rfl⟩ (.cons trivial
      ⟨⟨rfl, by decide⟩, trivial, rfl⟩ (.cons trivial ⟨rfl, trivial, rfl⟩
        (.cons ?_ ⟨twoPages_allocated rfl rfl, trivial, rfl⟩ .nil))),
      rfl, rfl, rfl, _, rfl, rfl, rfl, rfl, rfl⟩
    intro mcc chain q hc hq
    obtain ⟨-, rfl⟩ := Prod.mk.inj (Option.some.inj (Except.ok.inj hc))
    cases hq
  have hs := hr.reachable (.init hinit)
  exact ⟨s, s', hs, .step (i := .anchor [⟨4096, 12288, false⟩] twoPages 0 0 8192) hs.reachable trivial
    ⟨twoPages_allocated h₀ h₁, trivial, heq⟩, h₀, ha, hs'⟩

omit [PageLock] in
/-- A page that is anchored is locked. -/
theorem anchors_balanced_anchored : let _ := PageLock.flag
    ∃ s, AnchorSystem.ReachableBy Op.Balances s ∧ s.allocated 0 = true ∧ s.anchorOf 7 = some 0 ∧
      s.Balanced := by
  let _ := PageLock.flag
  obtain ⟨s, -, hs, -, h₀, ha, -⟩ := reanchored_run
  exact ⟨s, hs, h₀, ha, anchors_balanced hs⟩

omit [PageLock] in
/-- The page that was the anchor is locked, and is not unlocked when another one is anchored. -/
theorem replaced_anchor_locked : let _ := PageLock.flag
    ¬ ∀ s, AnchorSystem.Reachable s → s.Balanced := by
  intro _ h
  obtain ⟨-, s', -, hs', -, -, h₀, hlocked, hhome, ha⟩ := reanchored_run
  obtain ⟨c, hc⟩ := (h s' hs' 0 h₀).1 hlocked
  obtain rfl : c = 7 :=
    Option.some.inj (((lock_reachable_covers hs').1.home_of_anchor hc).symm.trans hhome)
  rw [ha] at hc
  cases hc

end Mm

end Mcpq.Kernel
