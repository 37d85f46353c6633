import Mcpq.Kernel.Descriptors

/-!
# The objects of the tasks

The runs of the operations with the log of the allocator (`LedgerSystem`), and what is live in their
states (`Accounted`): a chain exactly while a task holds it, a collection while its task points to it,
and the attributes of a chain never.

The exit of a task frees its chains and its collection, each once, and lets no page point to its
chains; but the slots of the collection, allocated with it, are freed by nothing. So a task that exits
has freed what it allocated only if it has never had a collection (`exit_releases_iff`).
-/

namespace Mcpq.Kernel

open Mm

/-- A memory, the log of the allocator, and the tasks that have exited. -/
structure Ledger where
  mm : Mm := {}
  log : AllocLog := []
  exited : TaskRef → Bool := fun _ => false

namespace Mm

/-- `newMemChain`, with the log. -/
def newMemChainLog (s : Mm) (tsk : TaskRef) (addr : ChainRef) (log : AllocLog) :
    Result (Mm × AllocLog) :=
  let log := if (s.mcc tsk).isNone then
      log ++ [.alloc tsk (.collection tsk)] ++ [.alloc tsk (.slots tsk)]
    else log
  let mcc := (s.mcc tsk).getD initMcc
  if mcc.count < mcc.capacity then do
    let slot ← findFreeSlot mcc.chains mcc.capacity
    if 0 ≤ slot ∧ slot.toNat < mcc.chains.length then
      let s := s.setChain addr (some { id := slot.toNat })
      pure (s.setMcc tsk (some { mcc with
        chains := mcc.chains.set slot.toNat (some addr), count := mcc.count + 1 }),
        log ++ [.alloc tsk (.chain addr)])
    else .error .outOfBounds
  else .ok (s.setMcc tsk (some mcc), log)

/-- `rlsMemChain`, with the log. -/
def rlsMemChainLog [Mlock] (s : Mm) (tsk : TaskRef) (c : ℕ) (log : AllocLog) :
    Result (Mm × AllocLog) := do
  match ← s.chainOf tsk c with
  | none => pure (s, log)
  | some (mcc, chain) =>
    let s ← s.unlinkChain chain
    let m ← s.derefChain chain
    let log := if m.attributes.isSome then log ++ [.free (.attributes chain)] else log
    let s ← s.kfreeChain chain
    pure (s.setMcc tsk (some { mcc with chains := mcc.chains.set c none, count := mcc.count - 1 }),
      log ++ [.free (.chain chain)])

end Mm

namespace Op

/-- The task that makes a system call, or exits. -/
def task : Op → Option TaskRef
  | newMemChain tsk _ | linkAddrRng _ _ tsk _ _ _ | anchor _ _ tsk _ _ | brkMemChain tsk _
  | rlsMemChain tsk _ | doExit tsk => some tsk
  | _ => none

/-- The tasks that have exited after the operation. -/
def exits (exited : TaskRef → Bool) : Op → TaskRef → Bool
  | doExit tsk => Function.update exited tsk true
  | _ => exited

/-- Execute an operation, with the log. -/
def execLog [Mlock] (s : Mm) (log : AllocLog) : Op → Result (Mm × AllocLog)
  | newMemChain tsk addr => s.newMemChainLog tsk addr log
  | rlsMemChain tsk c => s.rlsMemChainLog tsk c log
  | doExit tsk => s.doExitLog tsk log
  | op => (op.exec s).map fun s => (s, log)

end Op

/-- An operation that runs to completion, of a task that has not exited. -/
structure LedgerStep [Mlock] (l : Ledger) (op : Op) (l' : Ledger) : Prop where
  admissible : op.Admissible l.mm
  runs : ∀ tsk, op.task = some tsk → l.exited tsk = false
  completes : op.execLog l.mm l.log = .ok (l'.mm, l'.log)
  exited_eq : l'.exited = op.exits l.exited

/-- The ledger after an operation, with the memory and the log that it leaves. -/
def Ledger.after (l : Ledger) (op : Op) (x : Mm × AllocLog) : Ledger where
  mm := x.1
  log := x.2
  exited := op.exits l.exited

theorem LedgerStep.of_execLog [Mlock] {l : Ledger} {op : Op} {x : Mm × AllocLog}
    (hadm : op.Admissible l.mm) (hruns : ∀ tsk, op.task = some tsk → l.exited tsk = false)
    (h : op.execLog l.mm l.log = .ok x) : LedgerStep l op (l.after op x) :=
  ⟨hadm, hruns, h, rfl⟩

/-- The runs of the operations with the log, from a memory without chains. -/
def LedgerSystem [Mlock] : Transition Ledger Op where
  init l := System.init l.mm ∧ l.log = [] ∧ ∀ tsk, l.exited tsk = false
  step := LedgerStep

namespace Ledger

variable {l l' : Ledger} {s s' : Mm} {tsk : TaskRef} {log log' : AllocLog} {c : ChainRef}

/-! ## The log does not matter for the memory -/

/-- What a task allocates with its first chain. -/
def mccLog (s : Mm) (tsk : TaskRef) : AllocLog :=
  if (s.mcc tsk).isNone then [.alloc tsk (.collection tsk), .alloc tsk (.slots tsk)] else []

/-- The slot of a chain that has been created is not negative. -/
theorem newMemChainLog_eq (s : Mm) (tsk : TaskRef) (addr : ChainRef) (log : AllocLog) :
    s.newMemChainLog tsk addr log = (s.newMemChain tsk addr).map fun r =>
      (r.1, log ++ mccLog s tsk ++ if r.2 < 0 then [] else [.alloc tsk (.chain addr)]) := by
  have hlog : (if (s.mcc tsk).isNone then log ++ [.alloc tsk (.collection tsk)] ++
      [.alloc tsk (.slots tsk)] else log) = log ++ mccLog s tsk := by
    rw [mccLog]
    split_ifs
    · rw [List.append_assoc]
      rfl
    · rw [List.append_nil]
  rw [newMemChainLog, newMemChain, hlog]
  by_cases hcount : ((s.mcc tsk).getD initMcc).count < ((s.mcc tsk).getD initMcc).capacity
  · simp only [if_pos hcount]
    cases findFreeSlot ((s.mcc tsk).getD initMcc).chains ((s.mcc tsk).getD initMcc).capacity with
    | error e => rfl
    | ok slot =>
      simp only [ok_bind]
      split_ifs with hslot
      · simp [Except.map, not_lt.2 hslot.1]
      · rfl
  · simp [hcount, Except.map]

theorem newMemChainLog_fst (s : Mm) (tsk : TaskRef) (addr : ChainRef) (log : AllocLog) :
    (s.newMemChainLog tsk addr log).map Prod.fst = (s.newMemChain tsk addr).map Prod.fst := by
  rw [newMemChainLog_eq]
  cases s.newMemChain tsk addr with
  | error e => rfl
  | ok r => rfl

variable [Mlock]

theorem rlsMemChainLog_fst (s : Mm) (tsk : TaskRef) (i : ℕ) (log : AllocLog) :
    (s.rlsMemChainLog tsk i log).map Prod.fst = (s.rlsMemChain tsk i).map Prod.fst := by
  rw [rlsMemChainLog, rlsMemChain]
  cases s.chainOf tsk i with
  | error e => rfl
  | ok o =>
    cases o with
    | none => rfl
    | some x =>
      dsimp only [ok_bind]
      cases s.unlinkChain x.2 with
      | error e => rfl
      | ok s₁ =>
        dsimp only [ok_bind]
        rw [kfreeChain]
        cases s₁.derefChain x.2 with
        | error e => rfl
        | ok m => rfl

omit [Mlock] in
theorem map_ok {x : Result Mm} {y : Mm × AllocLog} (h : (x.map fun s => (s, log)) = .ok y) :
    ∃ s, x = .ok s ∧ (s, log) = y := by
  cases x with
  | error e => cases h
  | ok s => exact ⟨s, rfl, Except.ok.inj h⟩

theorem execLog_fst (s : Mm) (log : AllocLog) (op : Op) :
    (op.execLog s log).map Prod.fst = op.exec s := by
  cases op with
  | newMemChain tsk addr => exact newMemChainLog_fst s tsk addr log
  | rlsMemChain tsk i => exact rlsMemChainLog_fst s tsk i log
  | doExit tsk => exact doExitLog_fst s tsk log
  | linkAddrRng | anchor | brkMemChain | freePage | allocPage | markPageAccessed | setPageReferenced
  | clearPageReferenced | testClearPageReferenced | other =>
    rw [Op.execLog]
    · cases Op.exec s _ with
      | error e => rfl
      | ok s' => rfl
    all_goals simp

theorem step_mm {op : Op} (h : LedgerStep l op l') : Step l.mm op l'.mm :=
  ⟨h.admissible, by rw [← execLog_fst l.mm l.log op, h.completes]; rfl⟩

theorem reachable (h : LedgerSystem.Reachable l) : System.Reachable l.mm := by
  induction h with
  | init h => exact .init h.1
  | step _ _ hst ih => exact .step ih trivial (step_mm hst)

/-! ## What is live -/

/-- The status of an object. -/
def status (l : Ledger) (o : Obj) : AllocStatus TaskRef := .ofLog l.log o

/-- A chain is live while a task holds it, for that task; a collection and its slots are while their
    task points to the collection; and the attributes of a chain never are. -/
structure Accounted (l : Ledger) : Prop where
  chain_held : ∀ tsk i c, l.mm.Holds tsk i c → l.status (.chain c) = .live tsk
  chain_free : ∀ c, (∀ tsk i, ¬ l.mm.Holds tsk i c) → l.status (.chain c) = .free
  attributes : ∀ c, l.status (.attributes c) = .free
  collection : ∀ tsk, l.status (.collection tsk) = if (l.mm.mcc tsk).isSome then .live tsk else .free
  slots_live : ∀ tsk, l.mm.mcc tsk ≠ none → l.status (.slots tsk) = .live tsk
  slots_free : ∀ tsk, l.mm.mcc tsk = none → l.exited tsk = false → l.status (.slots tsk) = .free
  slots_ok : ∀ tsk, l.status (.slots tsk) = .free ∨ l.status (.slots tsk) = .live tsk

omit [Mlock] in
theorem Accounted.keeps (h : l.Accounted) (hk : KeepsTables l.mm l'.mm) (hlog : l'.log = l.log)
    (hexited : l'.exited = l.exited) : l'.Accounted := by
  have hstatus : l'.status = l.status := by
    funext o
    rw [status, status, hlog]
  have hholds : ∀ {tsk i c}, l'.mm.Holds tsk i c ↔ l.mm.Holds tsk i c := by
    intro tsk i c
    rw [Holds, Holds, hk.table_eq]
  refine ⟨fun tsk i c hc => ?_, fun c hc => ?_, fun c => ?_, fun tsk => ?_, fun tsk hmcc => ?_,
    fun tsk hmcc hex => ?_, fun tsk => ?_⟩
  all_goals rw [hstatus]
  · exact h.chain_held tsk i c (hholds.1 hc)
  · exact h.chain_free c fun tsk i hi => hc tsk i (hholds.2 hi)
  · exact h.attributes c
  · rw [hk.mcc_eq]
    exact h.collection tsk
  · exact h.slots_live tsk (hk.mcc_eq ▸ hmcc)
  · exact h.slots_free tsk (hk.mcc_eq ▸ hmcc) (hexited ▸ hex)
  · exact h.slots_ok tsk

section

omit [Mlock]

/-- A task has a collection and slots when it gets a chain. -/
theorem Accounted.status_mccLog (h : l.Accounted) (hrun : l.exited tsk = false) (o : Obj) :
    AllocStatus.ofLog (l.log ++ mccLog l.mm tsk) o =
      if o = .collection tsk ∨ o = .slots tsk then .live tsk else l.status o := by
  have hcollection := h.collection tsk
  rw [mccLog]
  cases hmcc : l.mm.mcc tsk with
  | none =>
    have hslots := h.slots_free tsk hmcc hrun
    rw [hmcc, Option.isSome_none, if_neg Bool.false_ne_true] at hcollection
    rw [Option.isNone_none, if_pos rfl, AllocStatus.ofLog_append, List.foldl_cons, List.foldl_cons,
      List.foldl_nil, AllocStatus.next, AllocStatus.next]
    by_cases hc : o = .collection tsk
    · subst hc
      rw [if_neg (by simp), if_pos rfl, if_pos (.inl rfl)]
      exact congrArg (AllocStatus.alloc tsk) hcollection
    · rw [if_neg (Ne.symm hc)]
      by_cases hs : o = .slots tsk
      · subst hs
        rw [if_pos rfl, if_pos (.inr rfl)]
        exact congrArg (AllocStatus.alloc tsk) hslots
      · rw [if_neg (Ne.symm hs), if_neg (by simp [hc, hs])]
        rfl
  | some mcc =>
    have hslots := h.slots_live tsk (by rw [hmcc]; exact Option.some_ne_none mcc)
    rw [hmcc, Option.isSome_some, if_pos rfl] at hcollection
    rw [Option.isNone_some, if_neg Bool.false_ne_true, List.append_nil]
    split_ifs with ho
    · rcases ho with rfl | rfl
      · exact hcollection
      · exact hslots
    · rfl

/-- A chain is created. -/
theorem Accounted.create (h : l.Accounted) (ht : l.mm.Tabled) (hrun : l.exited tsk = false) {i : ℕ}
    (hi : (l.mm.table tsk).chains[i]? = some none) (hc : l.mm.chain c = none)
    (hmcc : l'.mm.mcc = Function.update l.mm.mcc tsk (some { l.mm.table tsk with
      chains := (l.mm.table tsk).chains.set i (some c), count := (l.mm.table tsk).count + 1 }))
    (hlog : l'.log = l.log ++ mccLog l.mm tsk ++ [.alloc tsk (.chain c)])
    (hexited : l'.exited = l.exited) : l'.Accounted := by
  have hfree : l.status (.chain c) = .free := h.chain_free c fun tsk' j hj => by
    have := ht.live _ _ _ hj
    rw [hc] at this
    cases this
  -- The log ends with the allocation of the chain, and of the collection if there was none.
  have hst : ∀ o, l'.status o = if o = .chain c ∨ o = .collection tsk ∨ o = .slots tsk then
      .live tsk else l.status o := fun o => by
    rw [status, hlog, AllocStatus.ofLog_alloc, h.status_mccLog hrun]
    by_cases ho : o = .chain c
    · subst ho
      rw [if_pos rfl, if_neg (by simp), hfree, if_pos (.inl rfl)]
      rfl
    · rw [if_neg (Ne.symm ho)]
      exact if_congr (by simp [ho]) rfl rfl
  refine ⟨fun tsk' j d hd => ?_, fun d hd => ?_, fun d => ?_, fun tsk' => ?_, fun tsk' hsome => ?_,
    fun tsk' hnone hex => ?_, fun tsk' => ?_⟩
  -- A chain is held as before, unless it is the new one.
  all_goals rw [hst]
  · rcases (holds_create hi hmcc).1 hd with hd | ⟨rfl, -, rfl⟩
    · have hdc : d ≠ c := fun hdc => by
        have := ht.live _ _ _ hd
        rw [hdc, hc] at this
        cases this
      rw [if_neg (by simp [hdc])]
      exact h.chain_held tsk' j d hd
    · exact if_pos (.inl rfl)
  · have hdc : d ≠ c := fun hdc => hd tsk i ((holds_create hi hmcc).2 (.inr ⟨rfl, rfl, hdc⟩))
    rw [if_neg (by simp [hdc])]
    exact h.chain_free d fun tsk' j hj => hd tsk' j ((holds_create hi hmcc).2 (.inl hj))
  · rw [if_neg (by simp)]
    exact h.attributes d
  · rw [hmcc]
    by_cases htsk : tsk' = tsk
    · subst htsk
      rw [if_pos (by simp), Function.update_self, Option.isSome_some, if_pos rfl]
    · rw [if_neg (by simp [htsk]), Function.update_of_ne htsk]
      exact h.collection tsk'
  · rw [hmcc] at hsome
    by_cases htsk : tsk' = tsk
    · rw [if_pos (by simp [htsk]), htsk]
    · rw [Function.update_of_ne htsk] at hsome
      rw [if_neg (by simp [htsk])]
      exact h.slots_live tsk' hsome
  · rw [hmcc] at hnone
    have htsk : tsk' ≠ tsk := fun htsk => by
      rw [htsk, Function.update_self] at hnone
      cases hnone
    rw [Function.update_of_ne htsk] at hnone
    rw [if_neg (by simp [htsk])]
    exact h.slots_free tsk' hnone (hexited ▸ hex)
  · by_cases htsk : tsk' = tsk
    · subst htsk
      exact .inr (if_pos (by simp))
    · rw [if_neg (by simp [htsk])]
      exact h.slots_ok tsk'

/-- A chain is released. -/
theorem Accounted.release (h : l.Accounted) (ht : l.mm.Tabled) {i : ℕ} (hi : l.mm.Holds tsk i c)
    (hmcc : l'.mm.mcc = Function.update l.mm.mcc tsk (some { l.mm.table tsk with
      chains := (l.mm.table tsk).chains.set i none, count := (l.mm.table tsk).count - 1 }))
    (hlog : l'.log = l.log ++ [.free (.chain c)]) (hexited : l'.exited = l.exited) :
    l'.Accounted := by
  have hlive := h.chain_held tsk i c hi
  -- The log ends with the chain freed, and it was live, as the task held it.
  have hst : ∀ o, l'.status o = if o = .chain c then .free else l.status o := fun o => by
    rw [status, hlog, AllocStatus.ofLog_free]
    by_cases ho : o = .chain c
    · subst ho
      rw [if_pos rfl, if_pos rfl]
      exact congrArg AllocStatus.release hlive
    · rw [if_neg (Ne.symm ho), if_neg ho]
      rfl
  have hsome : l.mm.mcc tsk ≠ none := by
    rw [(chainOf_of_holds (ht.counted tsk) hi).1]
    exact Option.some_ne_none _
  -- The collection of the task, and those of the others, are left.
  have hnone : ∀ tsk', l'.mm.mcc tsk' = none ↔ l.mm.mcc tsk' = none := fun tsk' => by
    rw [hmcc]
    by_cases htsk : tsk' = tsk
    · rw [htsk, Function.update_self]
      exact iff_of_false (Option.some_ne_none _) hsome
    · rw [Function.update_of_ne htsk]
  refine ⟨fun tsk' j d hd => ?_, fun d hd => ?_, fun d => ?_, fun tsk' => ?_, fun tsk' hs => ?_,
    fun tsk' hn hex => ?_, fun tsk' => ?_⟩
  all_goals rw [hst]
  · obtain ⟨hd, hdc⟩ := (ht.holds_release hi hmcc).1 hd
    rw [if_neg (by simp [hdc])]
    exact h.chain_held tsk' j d hd
  · by_cases hdc : d = c
    · exact if_pos (congrArg Obj.chain hdc)
    · rw [if_neg (by simp [hdc])]
      exact h.chain_free d fun tsk' j hj => hd tsk' j ((ht.holds_release hi hmcc).2 ⟨hj, hdc⟩)
  · exact h.attributes d
  · rw [if_neg (by simp), h.collection]
    refine if_congr ?_ rfl rfl
    rw [Option.isSome_iff_ne_none, Option.isSome_iff_ne_none, Ne, Ne, hnone]
  · exact h.slots_live tsk' fun hn => hs ((hnone tsk').2 hn)
  · exact h.slots_free tsk' ((hnone tsk').1 hn) (hexited ▸ hex)
  · exact h.slots_ok tsk'

/-- What the exit of a task frees. -/
def FreedBy (s : Mm) (tsk : TaskRef) : Obj → Prop
  | .chain c => ∃ i, s.Holds tsk i c
  | .collection tsk' => tsk' = tsk
  | _ => False

/-- The status of the objects when a task has exited. -/
theorem Accounted.status_exit (h : l.Accounted) (ht : l.mm.Tabled) {log' : AllocLog}
    (hlog : log' = l.log ++ frees (l.mm.table tsk).chains ++
      (l.mm.mcc tsk).elim [] fun _ => [.free (.collection tsk)]) (o : Obj) :
    (FreedBy l.mm tsk o → AllocStatus.ofLog log' o = .free) ∧
      (¬ FreedBy l.mm tsk o → AllocStatus.ofLog log' o = l.status o) := by
  have hfrees : AllocStatus.ofLog (l.log ++ frees (l.mm.table tsk).chains) o =
      if o ∈ ((l.mm.table tsk).chains.filterMap id).map Obj.chain then (l.status o).release
      else l.status o := by
    have hnd : (((l.mm.table tsk).chains.filterMap id).map Obj.chain).Nodup :=
      (ht.nodup tsk).map fun _ _ hcd => Obj.chain.inj hcd
    rw [← show ((((l.mm.table tsk).chains.filterMap id).map Obj.chain).map .free : AllocLog) =
      frees (l.mm.table tsk).chains from List.map_map]
    exact AllocStatus.ofLog_frees l.log hnd o
  have hmem : ∀ c, Obj.chain c ∈ ((l.mm.table tsk).chains.filterMap id).map Obj.chain ↔
      ∃ i, l.mm.Holds tsk i c := fun c => by
    rw [← mem_chains]
    simp
  -- The collection is freed if there is one.
  have hcollection : ∀ log : AllocLog, AllocStatus.ofLog (log ++
      (l.mm.mcc tsk).elim [] fun _ => [.free (.collection tsk)]) o =
        if o = .collection tsk ∧ l.mm.mcc tsk ≠ none then (AllocStatus.ofLog log o).release
        else AllocStatus.ofLog log o := fun log => by
    cases l.mm.mcc tsk with
    | none => simp
    | some mcc =>
      rw [Option.elim_some, AllocStatus.ofLog_free]
      exact if_congr (by simp [eq_comm]) rfl rfl
  rw [hlog, hcollection, hfrees]
  cases o with
  | chain c =>
    rw [if_neg (by simp)]
    refine ⟨fun hf => ?_, fun hf => if_neg fun hc => hf ((hmem c).1 hc)⟩
    obtain ⟨i, hi⟩ := hf
    rw [if_pos ((hmem c).2 ⟨i, hi⟩), h.chain_held tsk i c hi]
    rfl
  | collection tsk' =>
    have hno : Obj.collection tsk' ∉ ((l.mm.table tsk).chains.filterMap id).map Obj.chain := by simp
    rw [if_neg hno]
    refine ⟨fun hf => ?_, fun hf => if_neg fun hc => hf (Obj.collection.inj hc.1)⟩
    obtain rfl : tsk' = tsk := hf
    have hc := h.collection tsk'
    cases hmcc : l.mm.mcc tsk' with
    | none =>
      rw [hmcc, Option.isSome_none, if_neg Bool.false_ne_true] at hc
      rw [if_neg (by simp), hc]
    | some mcc =>
      rw [hmcc, Option.isSome_some, if_pos rfl] at hc
      rw [if_pos (by simp), hc]
      rfl
  | slots tsk' =>
    rw [if_neg (by simp), if_neg (by simp)]
    exact ⟨fun hf => hf.elim, fun _ => rfl⟩
  | attributes c =>
    rw [if_neg (by simp), if_neg (by simp)]
    exact ⟨fun hf => hf.elim, fun _ => rfl⟩

/-- A task exits: its slots stay live. -/
theorem Accounted.exit (h : l.Accounted) (ht : l.mm.Tabled) (hexits : Exits l.mm l'.mm tsk)
    (hlog : l'.log = l.log ++ frees (l.mm.table tsk).chains ++
      (l.mm.mcc tsk).elim [] fun _ => [.free (.collection tsk)])
    (hexited : l'.exited = Function.update l.exited tsk true) : l'.Accounted := by
  have hst := h.status_exit ht hlog
  refine ⟨fun tsk' j d hd => ?_, fun d hd => ?_, fun d => ?_, fun tsk' => ?_, fun tsk' hs => ?_,
    fun tsk' hn hex => ?_, fun tsk' => ?_⟩
  · obtain ⟨hd, hne⟩ := hexits.holds.1 hd
    refine ((hst _).2 fun hf => ?_).trans (h.chain_held tsk' j d hd)
    obtain ⟨i, hi⟩ := hf
    exact hne (ht.owner _ _ _ _ _ hd hi)
  · by_cases hf : FreedBy l.mm tsk (.chain d)
    · exact (hst _).1 hf
    · refine ((hst _).2 hf).trans (h.chain_free d fun tsk' j hj => hd tsk' j ?_)
      refine hexits.holds.2 ⟨hj, fun htsk => hf ⟨j, ?_⟩⟩
      rwa [htsk] at hj
  · exact ((hst _).2 id).trans (h.attributes d)
  · rw [hexits.mcc_eq]
    by_cases htsk : tsk' = tsk
    · rw [htsk, Function.update_self]
      exact (hst _).1 rfl
    · rw [Function.update_of_ne htsk]
      exact ((hst (.collection tsk')).2 htsk).trans (h.collection tsk')
  · rw [hexits.mcc_eq] at hs
    have htsk : tsk' ≠ tsk := fun htsk => hs (by rw [htsk, Function.update_self])
    rw [Function.update_of_ne htsk] at hs
    exact ((hst _).2 id).trans (h.slots_live tsk' hs)
  · rw [hexited] at hex
    have htsk : tsk' ≠ tsk := fun htsk => by
      rw [htsk, Function.update_self] at hex
      cases hex
    rw [Function.update_of_ne htsk] at hex
    rw [hexits.mcc_eq, Function.update_of_ne htsk] at hn
    exact ((hst _).2 id).trans (h.slots_free tsk' hn hex)
  · have hs : l'.status (.slots tsk') = l.status (.slots tsk') := (hst _).2 id
    rw [hs]
    exact h.slots_ok tsk'

end

/-- A chain that a task holds is freed when it is released. -/
theorem rlsMemChainLog_of_holds (hl : s.Linked) (ht : s.Tabled) {i : ℕ} (hi : s.Holds tsk i c)
    (log : AllocLog) : ∃ s', s.rlsMemChainLog tsk i log = .ok (s', log ++ [.free (.chain c)]) := by
  obtain ⟨-, hchain⟩ := chainOf_of_holds (ht.counted tsk) hi
  obtain ⟨m, hm, -⟩ := Option.map_eq_some_iff.1 (ht.live tsk i c hi)
  obtain ⟨s₁, m', heq₁, hcl, -, hok, -⟩ := unlinkChain_spec hl hm
  have hm' : s₁.derefChain c = .ok m' :=
    derefChain_eq_ok.2 (by rw [hcl.chain_eq, Function.update_self])
  rw [rlsMemChainLog, hchain, ok_bind]
  dsimp only
  rw [heq₁, ok_bind, kfreeChain, hm', ok_bind, ok_bind, pure_eq_ok, ok_bind, hok.attributes_eq]
  exact ⟨_, rfl⟩

/-- Each operation keeps the account. -/
theorem Accounted.step {op : Op} (hl : l.mm.Linked) (ht : l.mm.Tabled) (h : l.Accounted)
    (hst : LedgerStep l op l') : l'.Accounted := by
  have hmm := step_mm hst
  obtain ⟨hadm, hruns, heq, hexited⟩ := hst
  have hkeep : l.mm.KeepsTables l'.mm → l'.log = l.log → l'.exited = l.exited → l'.Accounted :=
    h.keeps
  cases op with
  | newMemChain tsk addr =>
    have hrun := hruns tsk rfl
    rw [Op.execLog, newMemChainLog_eq] at heq
    by_cases hlt : nrLive (l.mm.table tsk) < maxNumChains
    · -- The collection has a free slot: a chain is created in it.
      obtain ⟨i, hi, -, hnew⟩ := newMemChain_of_free (ht.counted tsk) hlt addr
      rw [hnew] at heq
      obtain ⟨hmm', hlog⟩ := Prod.mk.inj (Except.ok.inj heq)
      rw [if_neg (not_lt.2 (Int.natCast_nonneg i))] at hlog
      exact h.create ht hrun hi hadm (hmm' ▸ rfl) hlog.symm hexited
    · -- The collection is full, so that it exists, and nothing is allocated.
      rw [newMemChain_of_full (ht.counted tsk) (not_lt.1 hlt) addr] at heq
      obtain ⟨hmm', hlog⟩ := Prod.mk.inj (Except.ok.inj heq)
      have hneg : ((l.mm, (-2 : ℤ)).2) < 0 := by simp
      have hsome := mcc_of_nrLive (Nat.lt_of_lt_of_le (by decide) (not_lt.1 hlt))
      rw [if_pos hneg, mccLog, hsome, Option.isNone_some, if_neg Bool.false_ne_true,
        List.append_nil, List.append_nil] at hlog
      exact h.keeps (hmm' ▸ .refl l.mm) hlog.symm hexited
  | rlsMemChain tsk i =>
    by_cases hi : ∃ c, l.mm.Holds tsk i c
    · obtain ⟨c, hi⟩ := hi
      obtain ⟨s', hrls, -, hmcc⟩ := rlsMemChain_of_holds hl ht hi
      obtain ⟨s₁, hlog₁⟩ := rlsMemChainLog_of_holds hl ht hi l.log
      have hfst := rlsMemChainLog_fst l.mm tsk i l.log
      rw [hlog₁, hrls] at hfst
      obtain rfl : s₁ = s' := Except.ok.inj hfst
      obtain ⟨rfl, hlog⟩ := Prod.mk.inj (Except.ok.inj (hlog₁.symm.trans heq))
      exact h.release ht hi hmcc hlog.symm hexited
    · -- The descriptor is not valid, and nothing is freed.
      have hrls : l.mm.rlsMemChainLog tsk i l.log = .ok (l.mm, l.log) := by
        rw [rlsMemChainLog, chainOf_of_not_holds (ht.counted tsk) (not_exists.1 hi)]
        rfl
      obtain ⟨hmm', hlog⟩ := Prod.mk.inj (Except.ok.inj (hrls.symm.trans heq))
      exact h.keeps (hmm' ▸ .refl l.mm) hlog.symm hexited
  | doExit tsk =>
    obtain ⟨s', hexit, hs'⟩ := doExitLog_spec hl ht tsk l.log
    obtain ⟨hmm', hlog⟩ := Prod.mk.inj (Except.ok.inj (hexit.symm.trans heq))
    exact h.exit ht (hmm' ▸ hs') hlog.symm hexited
  | linkAddrRng | anchor | brkMemChain | freePage | allocPage | markPageAccessed | setPageReferenced
  | clearPageReferenced | testClearPageReferenced | other =>
    -- The other operations keep the collections, and log nothing.
    have hlog := heq
    rw [Op.execLog] at hlog
    · obtain ⟨s', hs'⟩ := map_ok hlog
      obtain ⟨-, hlog⟩ := Prod.mk.inj hs'.2
      exact h.keeps (.exec hmm.completes trivial) hlog.symm hexited
    all_goals simp

theorem reachable_accounted (h : LedgerSystem.Reachable l) : l.Accounted := by
  induction h with
  | init h =>
    rename_i l
    obtain ⟨⟨-, -, hmcc, -⟩, hlog, -⟩ := h
    have hst : ∀ o, l.status o = .free := fun o => by
      rw [status, hlog]
      rfl
    refine ⟨fun tsk i c hc => ?_, fun c _ => hst _, fun c => hst _, fun tsk => ?_, fun tsk hs =>
      absurd (hmcc tsk) hs, fun tsk _ _ => hst _, fun tsk => .inl (hst _)⟩
    · rw [Holds, table, hmcc, Option.getD_none, initMcc, List.getElem?_replicate] at hc
      split_ifs at hc
      cases Option.some.inj hc
    · rw [hmcc]
      exact hst _
  | step hl _ hst ih =>
    have hr := reachable hl
    exact ih.step (reachable_covers hr).1 (reachable_tabled hr) hst

/-! ## The exit of a task -/

/-- The exit of the task ends; no page points to a chain of the task any more; and the objects that
    were allocated for it have been freed, each once, but for those of `kept`. -/
def ExitFrees (l : Ledger) (tsk : TaskRef) (kept : Obj → Prop) : Prop :=
  ∃ s' log', l.mm.doExitLog tsk l.log = .ok (s', log') ∧
    (∀ i c, l.mm.Holds tsk i c → ∀ p, (s'.page p).chain ≠ some c) ∧
    ∀ o, AllocStatus.ofLog log' o ≠ .bad ∧ (¬ kept o → AllocStatus.ofLog log' o ≠ .live tsk)

omit [Mlock] in
/-- No object has been freed twice. -/
theorem Accounted.ne_bad (h : l.Accounted) (o : Obj) : l.status o ≠ .bad := by
  cases o with
  | collection tsk =>
    rw [h.collection]
    split_ifs
    all_goals exact nofun
  | slots tsk =>
    rcases h.slots_ok tsk with hs | hs
    all_goals
      rw [hs]
      exact nofun
  | chain c =>
    by_cases hc : ∃ tsk i, l.mm.Holds tsk i c
    · obtain ⟨tsk, i, hi⟩ := hc
      rw [h.chain_held tsk i c hi]
      exact nofun
    · rw [h.chain_free c fun tsk i hi => hc ⟨tsk, i, hi⟩]
      exact nofun
  | attributes c =>
    rw [h.attributes]
    exact nofun

omit [Mlock] in
/-- The objects that are live for a task, but for its slots, are freed by its exit. -/
theorem Accounted.freedBy (h : l.Accounted) {o : Obj} (ho : l.status o = .live tsk)
    (hs : o ≠ .slots tsk) : FreedBy l.mm tsk o := by
  cases o with
  | collection tsk' =>
    rw [h.collection] at ho
    split_ifs at ho
    exact AllocStatus.live.inj ho
  | slots tsk' =>
    rcases h.slots_ok tsk' with hs' | hs'
    · rw [hs'] at ho
      cases ho
    · rw [hs'] at ho
      exact absurd (congrArg Obj.slots (AllocStatus.live.inj ho)) hs
  | chain c =>
    by_cases hc : ∃ tsk i, l.mm.Holds tsk i c
    · obtain ⟨tsk', i, hi⟩ := hc
      rw [h.chain_held tsk' i c hi] at ho
      exact ⟨i, AllocStatus.live.inj ho ▸ hi⟩
    · rw [h.chain_free c fun tsk i hi => hc ⟨tsk, i, hi⟩] at ho
      cases ho
  | attributes c =>
    rw [h.attributes] at ho
    cases ho

/-- A task that exits frees all but the slots of its collection; so it frees all that was allocated for
    it exactly if it has no collection. -/
theorem exit_releases_iff (h : LedgerSystem.Reachable l) (htsk : l.exited tsk = false) :
    l.ExitFrees tsk (· = Obj.slots tsk) ∧ (l.ExitFrees tsk (fun _ => False) ↔ l.mm.mcc tsk = none) := by
  have hr := reachable h
  have ht := reachable_tabled hr
  have hacc := reachable_accounted h
  obtain ⟨s', hexit, hs'⟩ := doExitLog_spec (reachable_covers hr).1 ht tsk l.log
  obtain ⟨log', hlog⟩ : ∃ log', log' = l.log ++ frees (l.mm.table tsk).chains ++
    (l.mm.mcc tsk).elim [] fun _ => [.free (.collection tsk)] := ⟨_, rfl⟩
  rw [← hlog] at hexit
  have hst := hacc.status_exit ht hlog
  -- What the exit does not free has the status that it had.
  have hbad : ∀ o, AllocStatus.ofLog log' o ≠ .bad := fun o => by
    by_cases hf : FreedBy l.mm tsk o
    · rw [(hst o).1 hf]
      exact nofun
    · rw [(hst o).2 hf]
      exact hacc.ne_bad o
  have hlive : ∀ o, o ≠ .slots tsk → AllocStatus.ofLog log' o ≠ .live tsk := fun o ho => by
    by_cases hf : FreedBy l.mm tsk o
    · rw [(hst o).1 hf]
      exact nofun
    · rw [(hst o).2 hf]
      exact fun hl => hf (hacc.freedBy hl ho)
  have hpages : ∀ i c, l.mm.Holds tsk i c → ∀ p, (s'.page p).chain ≠ some c :=
    fun i c hi p hp => ((hs'.home_iff p c).1 hp).2 i hi
  have hslots := (hst (.slots tsk)).2 id
  refine ⟨⟨s', log', hexit, hpages, fun o => ⟨hbad o, hlive o⟩⟩, fun hfrees => ?_, fun hnone =>
    ⟨s', log', hexit, hpages, fun o => ⟨hbad o, fun _ => ?_⟩⟩⟩
  · obtain ⟨s₁, log₁, heq, -, hfreed⟩ := hfrees
    obtain ⟨-, rfl⟩ := Prod.mk.inj (Except.ok.inj (hexit.symm.trans heq))
    by_contra hsome
    exact (hfreed (.slots tsk)).2 not_false (hslots.trans (hacc.slots_live tsk hsome))
  · by_cases ho : o = .slots tsk
    · rw [ho, hslots, hacc.slots_free tsk hnone htsk]
      exact nofun
    · exact hlive o ho

set_option maxRecDepth 8000 in
omit [Mlock] in
/-- A task with a chain of one page; what it has allocated when it has exited. -/
theorem reachable_linked : ∃ l, (@LedgerSystem Mlock.flag).Reachable l ∧ l.exited 0 = false ∧
    (l.mm.page 0).chain = some 7 ∧ ∃ s' log', l.mm.doExitLog 0 l.log = .ok (s', log') ∧
      AllocStatus.ofLog log' (.slots 0) = .live 0 := by
  let _ := Mlock.flag
  have hl : LedgerSystem.Reachable ({} : Ledger) :=
    .init ⟨⟨fun _ => rfl, fun _ => rfl, fun _ => rfl, fun _ h => nomatch h⟩, rfl, fun _ => rfl⟩
  obtain ⟨l, hr, hl'⟩ : ∃ l, LedgerSystem.RunBy (fun _ _ => True) {} [.allocPage 0,
      .newMemChain 0 7, .linkAddrRng [⟨4096, 8192, false⟩] (fun a => if a = 4096 then some 0 else none)
        0 0 4096 4096] l ∧ l.exited 0 = false ∧
      (l.mm.page 0).chain = some 7 ∧ ∃ s' log', l.mm.doExitLog 0 l.log = .ok (s', log') ∧
        AllocStatus.ofLog log' (.slots 0) = .live 0 := by
    refine ⟨_, .cons trivial (.of_execLog ⟨rfl, by decide⟩ (fun _ _ => rfl) rfl) (.cons trivial
      (.of_execLog rfl (fun _ _ => rfl) rfl) (.cons trivial (.of_execLog (fun a p ha => ?_)
      (fun _ _ => rfl) rfl) .nil)), rfl, rfl, _, _, rfl, rfl⟩
    dsimp only at ha
    split_ifs at ha
    exact Option.some.inj ha ▸ rfl
  exact ⟨l, hr.reachable hl, hl'⟩

omit [Mlock] in
/-- A thread exits while a page is linked to its chain. -/
theorem exit_releases_iff_linked : ∃ l, (@LedgerSystem Mlock.flag).Reachable l ∧
    (l.mm.page 0).chain = some 7 ∧ l.ExitFrees 0 (· = Obj.slots 0) ∧
    (l.ExitFrees 0 (fun _ => False) ↔ l.mm.mcc 0 = none) := by
  let _ := Mlock.flag
  obtain ⟨l, hl, htsk, hp, -⟩ := reachable_linked
  exact ⟨l, hl, hp, exit_releases_iff hl htsk⟩

omit [Mlock] in
/-- The slots of a task that has exited are still allocated. -/
theorem slots_leak : ∃ l, (@LedgerSystem Mlock.flag).Reachable l ∧ l.exited 0 = false ∧
    ¬ l.ExitFrees 0 fun _ => False := by
  let _ := Mlock.flag
  obtain ⟨l, hl, htsk, -, s', log', hexit, hlive⟩ := reachable_linked
  refine ⟨l, hl, htsk, fun hfrees => ?_⟩
  obtain ⟨s₁, log₁, heq, -, hfreed⟩ := hfrees
  obtain ⟨-, rfl⟩ := Prod.mk.inj (Except.ok.inj (hexit.symm.trans heq))
  exact (hfreed (.slots 0)).2 not_false hlive

end Ledger

end Mcpq.Kernel
