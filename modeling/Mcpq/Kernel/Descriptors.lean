import Mcpq.Kernel.Exit

/-!
# Chain descriptors

The tables of the tasks are well formed in every state that is reached (`reachable_tabled`). So the
descriptors are as the system calls promise (`chain_descriptors`): a chain is created with the least
descriptor that is free, while the task has fewer chains than it may, and a descriptor is released
exactly if a chain has it.
-/

namespace Mcpq.Kernel.Mm

variable {s s' : Mm} {tsk : TaskRef}

/-- What the tasks hold when a task has exited. -/
theorem Exits.holds (h : Exits s s' tsk) {tsk' : TaskRef} {j : ℕ} {c : ChainRef} :
    s'.Holds tsk' j c ↔ s.Holds tsk' j c ∧ tsk' ≠ tsk := by
  rw [holds_of_table (table_of_mcc h.mcc_eq)]
  split_ifs with htsk
  · rw [Option.getD_none, initMcc, List.getElem?_replicate]
    refine iff_of_false (fun hc => ?_) fun hc => hc.2 htsk
    split_ifs at hc
    cases Option.some.inj hc
  · exact (and_iff_left htsk).symm

/-- A task exits: the others keep what they hold. -/
theorem Tabled.exit (ht : s.Tabled) (h : Exits s s' tsk) : s'.Tabled := by
  refine ⟨fun tsk' => ?_, fun tsk' j c hc => ?_, fun tsk₁ tsk₂ j₁ j₂ c h₁ h₂ =>
    ht.owner _ _ _ _ _ (h.holds.1 h₁).1 (h.holds.1 h₂).1⟩
  · rw [table_of_mcc h.mcc_eq]
    by_cases htsk : tsk' = tsk
    · rw [htsk, Function.update_self]
      exact counted_initMcc
    · rw [Function.update_of_ne htsk]
      exact ht.counted tsk'
  · obtain ⟨hc, hne⟩ := h.holds.1 hc
    rw [h.not_held c fun i hi => hne (ht.owner _ _ _ _ _ hc hi)]
    exact ht.live tsk' j c hc

variable [Mlock]

/-- The operations that neither create chains nor free any. -/
def OpKeepsTables : Op → Prop
  | .newMemChain .. | .rlsMemChain .. | .doExit _ => False
  | _ => True

theorem KeepsTables.exec {op : Op} (heq : op.exec s = .ok s') (hop : OpKeepsTables op) :
    KeepsTables s s' := by
  cases op with
  | newMemChain | rlsMemChain | doExit => exact hop.elim
  | linkAddrRng vmas lookup tsk c start len =>
    obtain ⟨r, heq⟩ := map_fst_ok heq
    rcases linkAddrRng_cases heq with ⟨-, rfl⟩ | ⟨x, -, heq⟩
    · exact .refl s'
    · exact doMlinkPages heq
  | anchor vmas lookup tsk c addr =>
    obtain ⟨r, heq⟩ := map_fst_ok heq
    rcases anchor_cases heq with ⟨-, rfl⟩ | ⟨x, r', -, heq⟩
    · exact .refl s'
    · exact doMlinkPages heq
  | brkMemChain tsk c =>
    obtain ⟨r, heq⟩ := map_fst_ok heq
    rcases brkMemChain_cases heq with ⟨-, rfl⟩ | ⟨x, -, heq⟩
    · exact .refl s'
    · exact unlinkChain heq
  | freePage p => exact freePage heq
  | allocPage p => exact Except.ok.inj heq ▸ allocPage s p
  | markPageAccessed p => exact markPageAccessed heq
  | setPageReferenced p => exact setPageReferenced heq
  | clearPageReferenced p => exact clearPageReferenced heq
  | testClearPageReferenced p =>
    obtain ⟨v, heq⟩ := map_fst_ok heq
    exact testClearPageReferenced heq
  | other page zone =>
    obtain rfl := Except.ok.inj heq
    exact ⟨rfl, fun _ => rfl⟩

/-- Each operation keeps the tables well formed. -/
theorem Tabled.step {op : Op} (hl : s.Linked) (ht : s.Tabled) (hst : Step s op s') : s'.Tabled := by
  obtain ⟨hadm, heq⟩ := hst
  cases op with
  | newMemChain tsk addr =>
    obtain ⟨r, heq⟩ := map_fst_ok heq
    by_cases hlt : nrLive (s.table tsk) < maxNumChains
    · obtain ⟨i, hi, -, hnew⟩ := newMemChain_of_free (ht.counted tsk) hlt addr
      obtain ⟨rfl, -⟩ := Prod.mk.inj (Except.ok.inj (hnew.symm.trans heq))
      exact ht.create hi hadm rfl rfl
    · have hnew := newMemChain_of_full (ht.counted tsk) (not_lt.1 hlt) addr
      obtain ⟨rfl, -⟩ := Prod.mk.inj (Except.ok.inj (hnew.symm.trans heq))
      exact ht
  | rlsMemChain tsk i =>
    obtain ⟨r, heq⟩ := map_fst_ok heq
    by_cases hi : ∃ c, s.Holds tsk i c
    · obtain ⟨c, hi⟩ := hi
      obtain ⟨s₁, hrls, hchain, hmcc⟩ := rlsMemChain_of_holds hl ht hi
      obtain ⟨rfl, -⟩ := Prod.mk.inj (Except.ok.inj (hrls.symm.trans heq))
      exact ht.release hi hchain hmcc
    · have hrls := rlsMemChain_of_not_holds ht (not_exists.1 hi)
      obtain ⟨rfl, -⟩ := Prod.mk.inj (Except.ok.inj (hrls.symm.trans heq))
      exact ht
  | doExit tsk =>
    obtain ⟨s₁, hexit, h⟩ := doExitLog_spec hl ht tsk []
    have hfst := doExitLog_fst s tsk []
    rw [hexit] at hfst
    obtain rfl := Except.ok.inj (hfst.trans heq)
    exact ht.exit h
  | linkAddrRng | anchor | brkMemChain | freePage | allocPage | markPageAccessed | setPageReferenced
  | clearPageReferenced | testClearPageReferenced | other => exact ht.keeps (.exec heq trivial)

theorem reachable_tabled (h : System.Reachable s) : s.Tabled := by
  suffices hs : s.Covers ∧ s.Tabled from hs.2
  refine h.invariant (I := fun s => s.Covers ∧ s.Tabled) (fun s hs => ⟨reachable_covers (.init hs), ?_⟩)
    fun _ _ _ hs _ hst => ⟨(hs.1.step hst).1, hs.2.step hs.1.1 hst⟩
  obtain ⟨-, -, hmcc, -⟩ := hs
  have htable : ∀ tsk, s.table tsk = initMcc := fun tsk => by
    rw [table, hmcc]
    rfl
  have hholds : ∀ tsk i c, ¬ s.Holds tsk i c := fun tsk i c hc => by
    rw [Holds, htable, initMcc, List.getElem?_replicate] at hc
    split_ifs at hc
    cases Option.some.inj hc
  exact ⟨fun tsk => htable tsk ▸ counted_initMcc, fun tsk i c hc => absurd hc (hholds tsk i c),
    fun tsk _ i _ c hc => absurd hc (hholds tsk i c)⟩

/-- What the system calls promise of the chain descriptors of a task. -/
structure Descriptors (s : Mm) (tsk : TaskRef) : Prop where
  counted : ∀ mcc, s.mcc tsk = some mcc → mcc.capacity = maxNumChains ∧
    mcc.chains.length = maxNumChains ∧ mcc.count = (mcc.chains.countP Option.isSome : ℕ)
  id_eq : ∀ mcc i c, s.mcc tsk = some mcc → mcc.chains[i]? = some (some c) →
    ∃ m, s.chain c = some m ∧ m.id = i
  /-- A chain is created in the least slot that is free. -/
  new_free : ∀ addr, s.chain addr = none → nrLive (s.table tsk) < maxNumChains →
    ∃ (i : ℕ) (s' : Mm), (s.table tsk).chains[i]? = some none ∧
      (∀ j < i, ∃ c, s.Holds tsk j c) ∧ s.newMemChain tsk addr = .ok (s', i) ∧
      s'.chain = Function.update s.chain addr (some { id := i }) ∧
      s'.mcc = Function.update s.mcc tsk (some { s.table tsk with
        chains := (s.table tsk).chains.set i (some addr), count := (s.table tsk).count + 1 })
  /-- All the slots hold chains. -/
  new_full : ∀ addr, nrLive (s.table tsk) = maxNumChains → s.newMemChain tsk addr = .ok (s, -2)
  /-- The chain of the descriptor is released. -/
  rls_held : ∀ i c, s.Holds tsk i c → ∃ s', s.rlsMemChain tsk i = .ok (s', 0) ∧
    s'.chain = Function.update s.chain c none ∧
    s'.mcc = Function.update s.mcc tsk (some { s.table tsk with
      chains := (s.table tsk).chains.set i none, count := (s.table tsk).count - 1 })
  /-- No chain has the descriptor. -/
  rls_not_held : ∀ i, (∀ c, ¬ s.Holds tsk i c) → s.rlsMemChain tsk i = .ok (s, -1)

/-- The descriptors in the states that are reached, and the search for one in an array of slots. -/
theorem chain_descriptors : (∀ s : Mm, System.Reachable s → ∀ tsk, Descriptors s tsk) ∧
    ∀ array : List (Option ChainRef), 5 ∣ array.length →
      ∃ r, findFreeSlot array array.length = .ok r ∧ FirstFree array r := by
  refine ⟨fun s hs tsk => ?_, fun array => findFreeSlot_spec⟩
  have hl : s.Linked := (reachable_covers hs).1
  have ht := reachable_tabled hs
  have htable : ∀ {mcc}, s.mcc tsk = some mcc → s.table tsk = mcc := fun hmcc => by
    rw [table, hmcc, Option.getD_some]
  refine ⟨fun mcc hmcc => ?_, fun mcc i c hmcc hi => ?_, fun addr _ hlt => ?_, fun addr hfull =>
    newMemChain_of_full (ht.counted tsk) hfull.ge addr, fun i c hi => ?_, fun i hi =>
    rlsMemChain_of_not_holds ht hi⟩
  · have hc := ht.counted tsk
    rw [htable hmcc] at hc
    exact ⟨hc.capacity_eq, hc.length_eq, hc.count_eq⟩
  · rw [← htable hmcc] at hi
    exact Option.map_eq_some_iff.1 (ht.live tsk i c hi)
  · obtain ⟨i, hi, hbelow, hnew⟩ := newMemChain_of_free (ht.counted tsk) hlt addr
    exact ⟨i, _, hi, hbelow, hnew, rfl, rfl⟩
  · exact rlsMemChain_of_holds hl ht hi

set_option maxRecDepth 8000 in
omit [Mlock] in
/-- Two chains are created, and the first one is released. -/
theorem chain_descriptors_two : (∃ s : Mm, (@System Mlock.flag).Reachable s ∧ s.Holds 0 1 8 ∧
    @Descriptors Mlock.flag s 0) ∧
    ∃ r, findFreeSlot [some 7, none, none, some 8, none] 5 = .ok r ∧
      FirstFree [some 7, none, none, some 8, none] r := by
  let _ := Mlock.flag
  have hs : System.Reachable ({} : Mm) :=
    .init ⟨fun _ => rfl, fun _ => rfl, fun _ => rfl, fun _ h => nomatch h⟩
  obtain ⟨s, hr, hs₁⟩ : ∃ s, System.RunBy (fun _ _ => True) {} [.newMemChain 0 7, .newMemChain 0 8,
      .rlsMemChain 0 0] s ∧ s.Holds 0 1 8 :=
    ⟨_, .cons trivial ⟨rfl, rfl⟩ (.cons trivial ⟨rfl, rfl⟩ (.cons trivial ⟨trivial, rfl⟩ .nil)), rfl⟩
  exact ⟨⟨s, hr.reachable hs, hs₁, chain_descriptors.1 s (hr.reachable hs) 0⟩,
    chain_descriptors.2 [some 7, none, none, some 8, none] (dvd_refl 5)⟩

end Mcpq.Kernel.Mm
