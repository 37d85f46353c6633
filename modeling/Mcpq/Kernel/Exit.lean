import Mcpq.Kernel.Table
import Mcpq.Lib.Allocations

/-!
# The exit of a task

The chain code of `do_exit`, with the objects it frees (`doExitLog`: `doExit` with the log of the
allocator). It frees the chains in the slots of the task, each once, and unlinks their pages
(`exitSlotsLog_spec`): the loop stops when all of them have been freed, and does not leave the array.
-/

namespace Mcpq.Kernel

/-- The objects that the chain code of the tasks allocates: the collection of a task and its slots, a
    chain, and its attributes. -/
inductive Obj
  | collection (tsk : TaskRef)
  | slots (tsk : TaskRef)
  | chain (c : ChainRef)
  | attributes (c : ChainRef)
  deriving DecidableEq, Repr

/-- What `kmalloc`, for a task, and `kfree` have been asked for. -/
abbrev AllocLog := List (AllocEvent TaskRef Obj)

namespace Mm

/-- `exitSlot`, with the log. -/
def exitSlotLog (mcc : MemoryChainCollection) (i : ℕ) (s : Mm) (log : AllocLog) :
    Result (MemoryChainCollection × Mm × AllocLog) := do
  match ← arrayGet mcc.chains i with
  | none => pure (mcc, s, log)
  | some c =>
    let m ← s.derefChain c
    let log := if m.attributes.isSome then log ++ [.free (.attributes c)] else log
    let s ← s.unlinkChainFast c
    let s ← s.kfreeChain c
    pure ({ mcc with count := mcc.count - 1 }, s, log ++ [.free (.chain c)])

/-- `exitSlots`, with the log. -/
def exitSlotsLog : ℕ → ℕ → MemoryChainCollection → Mm → AllocLog →
    Result (MemoryChainCollection × Mm × AllocLog)
  | fuel, i, mcc, s, log =>
    if i < mcc.capacity ∧ 0 < mcc.count then
      match fuel with
      | 0 => .error .diverges
      | fuel + 1 => do
        let (mcc, s, log) ← exitSlotLog mcc i s log
        let i := i + 1
        let (mcc, s, log) ← exitSlotLog mcc i s log
        let i := i + 1
        let (mcc, s, log) ← exitSlotLog mcc i s log
        let i := i + 1
        let (mcc, s, log) ← exitSlotLog mcc i s log
        let i := i + 1
        let (mcc, s, log) ← exitSlotLog mcc i s log
        exitSlotsLog fuel (i + 1) mcc s log
    else .ok (mcc, s, log)

/-- `doExit`, with the log. -/
def doExitLog (s : Mm) (tsk : TaskRef) (log : AllocLog) : Result (Mm × AllocLog) := do
  let (s, log) ← (match s.mcc tsk with
    | none => .ok (s, log)
    | some mcc => do
      let (_, s, log) ← exitSlotsLog mcc.capacity 0 mcc s log
      pure (s, log ++ [.free (.collection tsk)]))
  pure (s.setMcc tsk none, log)

variable {s s' s₁ : Mm} {p : PageRef} {c : ChainRef} {tsk : TaskRef} {mcc mcc₁ : MemoryChainCollection}
  {i : ℕ} {log log₁ : AllocLog}

/-! ## The log does not matter for the memory -/

/-- Forget the log. -/
def forget {α : Type} (r : α × Mm × AllocLog) : α × Mm := (r.1, r.2.1)

theorem exitSlotLog_forget (mcc : MemoryChainCollection) (i : ℕ) (s : Mm) (log : AllocLog) :
    (exitSlotLog mcc i s log).map forget = exitSlot mcc i s := by
  rw [exitSlotLog, exitSlot]
  cases arrayGet mcc.chains i with
  | error e => rfl
  | ok o =>
    cases o with
    | none => rfl
    | some c =>
      dsimp only [ok_bind]
      cases s.derefChain c with
      | error e => rfl
      | ok m =>
        dsimp only [ok_bind]
        cases s.unlinkChainFast c with
        | error e => rfl
        | ok s₁ =>
          dsimp only [ok_bind]
          cases s₁.kfreeChain c with
          | error e => rfl
          | ok s₂ => rfl

/-- A slot is examined, and then the rest does not depend on the log. -/
theorem forget_bind {α : Type} {f : MemoryChainCollection × Mm × AllocLog →
      Result (α × Mm × AllocLog)} {g : MemoryChainCollection × Mm → Result (α × Mm)}
    (h : ∀ mcc s log, (f (mcc, s, log)).map forget = g (mcc, s)) :
    (exitSlotLog mcc i s log >>= f).map forget = exitSlot mcc i s >>= g := by
  rw [← exitSlotLog_forget mcc i s log]
  cases exitSlotLog mcc i s log with
  | error e => rfl
  | ok r => exact h r.1 r.2.1 r.2.2

theorem exitSlotsLog_forget : ∀ (fuel i : ℕ) (mcc : MemoryChainCollection) (s : Mm)
    (log : AllocLog), (exitSlotsLog fuel i mcc s log).map forget = exitSlots fuel i mcc s := by
  intro fuel
  induction fuel with
  | zero =>
    intro i mcc s log
    rw [exitSlotsLog, exitSlots]
    split_ifs
    all_goals rfl
  | succ fuel ih =>
    intro i mcc s log
    rw [exitSlotsLog, exitSlots]
    split_ifs
    · refine forget_bind fun mcc s log => ?_
      refine forget_bind fun mcc s log => ?_
      refine forget_bind fun mcc s log => ?_
      refine forget_bind fun mcc s log => ?_
      exact forget_bind fun mcc s log => ih _ _ _ _
    · rfl

theorem doExitLog_fst (s : Mm) (tsk : TaskRef) (log : AllocLog) :
    (s.doExitLog tsk log).map Prod.fst = s.doExit tsk := by
  rw [doExitLog, doExit]
  cases s.mcc tsk with
  | none => rfl
  | some mcc =>
    dsimp only
    rw [← exitSlotsLog_forget _ _ _ _ log]
    cases exitSlotsLog mcc.capacity 0 mcc s log with
    | error e => rfl
    | ok r => rfl

/-! ## The loop -/

/-- What is freed with the chains in slots. -/
def frees (slots : List (Option ChainRef)) : AllocLog :=
  (slots.filterMap id).map fun c => .free (.chain c)

@[simp] theorem frees_append (l l' : List (Option ChainRef)) :
    frees (l ++ l') = frees l ++ frees l' := by
  rw [frees, List.filterMap_append, List.map_append]
  rfl

@[simp] theorem frees_none : frees [none] = [] := rfl

@[simp] theorem frees_some (c : ChainRef) : frees [some c] = [.free (.chain c)] := rfl

/-- The chains in the slots `done` have been freed, and their pages unlinked. -/
structure Exited (s s' : Mm) (done : List (Option ChainRef)) : Prop where
  linked : s'.Linked
  home_iff : ∀ p c, s'.home p = some c ↔ s.home p = some c ∧ some c ∉ done
  chain_eq : ∀ c, s'.chain c = if some c ∈ done then none else s.chain c
  mcc_eq : s'.mcc = s.mcc

/-- The loop has examined the slots `done`, and is to examine the others: the chains in the slots are
    allocated, and different; the collection counts those that are left. -/
structure Exiting (s : Mm) (log : AllocLog) (done rest : List (Option ChainRef))
    (r : MemoryChainCollection × Mm × AllocLog) : Prop where
  live : ∀ c, some c ∈ done ++ rest → ∃ m, s.chain c = some m
  nodup : ((done ++ rest).filterMap id).Nodup
  exited : Exited s r.2.1 done
  chains_eq : r.1.chains = done ++ rest
  capacity_eq : r.1.capacity = (done ++ rest).length
  count_eq : r.1.count = (rest.countP Option.isSome : ℕ)
  log_eq : r.2.2 = log ++ frees done

namespace Exiting

variable {done rest : List (Option ChainRef)} {x : Option ChainRef}
  {r : MemoryChainCollection × Mm × AllocLog}

/-- The chain in the next slot has not been freed. -/
theorem not_mem (h : Exiting s log done (some c :: rest) r) : some c ∉ done := fun hc => by
  have hnd := h.nodup
  rw [List.filterMap_append, List.nodup_append] at hnd
  exact hnd.2.2 c (List.mem_filterMap.2 ⟨some c, hc, rfl⟩) c
    (List.mem_filterMap.2 ⟨some c, List.mem_cons_self, rfl⟩) rfl

/-- A slot is examined. -/
theorem step (h : Exiting s log done (x :: rest) r) :
    ∃ r', exitSlotLog r.1 done.length r.2.1 r.2.2 = .ok r' ∧ Exiting s log (done ++ [x]) rest r' := by
  obtain ⟨mcc, s₁, log₁⟩ := r
  have hget : arrayGet mcc.chains done.length = .ok x := by
    rw [arrayGet, h.chains_eq, List.getElem?_append_right le_rfl, Nat.sub_self]
    rfl
  have happend : done ++ [x] ++ rest = done ++ x :: rest := by rw [List.append_assoc]; rfl
  have hlive := happend.symm ▸ h.live
  have hnodup := happend.symm ▸ h.nodup
  have hchains := h.chains_eq.trans happend.symm
  have hcapacity := happend.symm ▸ h.capacity_eq
  have hcount := h.count_eq
  rw [List.countP_cons] at hcount
  rw [exitSlotLog, hget, ok_bind]
  cases x with
  | none =>
    -- An empty slot: nothing is freed.
    refine ⟨_, rfl, hlive, hnodup, ⟨h.exited.linked, fun p c => ?_, fun c => ?_, h.exited.mcc_eq⟩,
      hchains, hcapacity, by simpa using hcount, ?_⟩
    · rw [h.exited.home_iff]
      simp
    · rw [h.exited.chain_eq]
      simp
    · rw [h.log_eq]
      simp
  | some c =>
    -- The chain has not been freed by an earlier slot, so it is unlinked and freed.
    obtain ⟨m, hm⟩ := h.live c (by simp)
    have hm₁ : s₁.chain c = some m := by rw [h.exited.chain_eq, if_neg h.not_mem, hm]
    obtain ⟨s₂, m₂, heq₂, hc₂⟩ := unlinkChainFast_spec h.exited.linked hm₁
    obtain ⟨s₃, heq₃, hc₃⟩ := kfreeChain_spec hc₂
    have hattr : m.attributes = none := (h.exited.linked.chain c m hm₁).attributes_eq
    dsimp only
    rw [derefChain_eq_ok.2 hm₁, ok_bind, heq₂, ok_bind, heq₃, ok_bind, hattr]
    refine ⟨_, rfl, hlive, hnodup, ⟨(hc₃.freed h.exited.linked).1, fun p d => ?_, fun d => ?_, ?_⟩,
      hchains, hcapacity, ?_, ?_⟩
    · have hiff := h.exited.home_iff p
      have hmem := h.exited.linked.members.mem_iff p c
      rw [hc₃.home_eq]
      dsimp only
      split_ifs with hp
      · -- The page was on the chain that is freed.
        have hpc := ((hiff c).1 (hmem.1 hp)).1
        refine iff_of_false (by simp) fun hd => ?_
        obtain rfl : c = d := Option.some.inj (hpc.symm.trans hd.1)
        exact hd.2 (by simp)
      · -- The other pages are on the chains of before.
        rw [hiff, List.mem_append, List.mem_singleton, not_or]
        refine and_congr_right fun hd => ⟨fun hn => ⟨hn, fun hdc => hp (hmem.2 ?_)⟩, And.left⟩
        rw [← hdc]
        exact (hiff d).2 ⟨hd, hn⟩
    · rw [hc₃.chain_eq]
      by_cases hd : d = c
      · rw [hd, Function.update_self, if_pos (by simp)]
      · rw [Function.update_of_ne hd, h.exited.chain_eq]
        simp [hd]
    · exact ((kfreeChain_mcc heq₃).trans (KeepsTables.unlinkChainFast heq₂).mcc_eq).trans
        h.exited.mcc_eq
    · dsimp only at hcount ⊢
      rw [hcount]
      simp
    · have hlog := h.log_eq
      dsimp only at hlog ⊢
      rw [if_neg (by simp), hlog]
      simp

/-- The rest of the slots holds no chain. -/
theorem skip (h : Exiting s log done rest r) (hrest : ∀ c, some c ∉ rest) :
    Exiting s log (done ++ rest) [] r := by
  have hnone : ∀ x ∈ rest, x = none := fun x hx => by
    cases x with
    | none => rfl
    | some c => exact absurd hx (hrest c)
  have hmem : ∀ c, some c ∈ done ++ rest ↔ some c ∈ done := fun c => by simp [hrest c]
  refine ⟨by simpa using h.live, by simpa using h.nodup, ⟨h.exited.linked, fun p c => ?_, fun c => ?_,
    h.exited.mcc_eq⟩, by simpa using h.chains_eq, by simpa using h.capacity_eq, ?_, ?_⟩
  · rw [hmem]
    exact h.exited.home_iff p c
  · rw [h.exited.chain_eq]
    exact if_congr (hmem c).symm rfl rfl
  · rw [h.count_eq, List.countP_nil, List.countP_eq_zero.2 fun x hx => by simp [hnone x hx]]
  · have hnil : rest.filterMap id = [] := List.filterMap_eq_nil_iff.2 hnone
    rw [h.log_eq, frees_append, show frees rest = [] by rw [frees, hnil]; rfl, List.append_nil]

end Exiting

/-- The rest of the slots, if it is not empty, has five slots at least. -/
theorem exists_five {α : Type} {l : List α} (h5 : 5 ∣ l.length) (hl : 0 < l.length) :
    ∃ a b c d e rest, l = a :: b :: c :: d :: e :: rest ∧ 5 ∣ rest.length := by
  match l, h5, hl with
  | a :: b :: c :: d :: e :: rest, h5, _ =>
    simp only [List.length_cons] at h5
    exact ⟨a, b, c, d, e, rest, rfl, by omega⟩
  | [_], h5, _ | [_, _], h5, _ | [_, _, _], h5, _ | [_, _, _, _], h5, _ =>
    simp at h5

/-- The loop ends when the chains in all the slots have been freed: it stops at the end of the array, or
    when no chains are left. -/
theorem exitSlotsLog_spec : ∀ {fuel : ℕ} {done rest : List (Option ChainRef)}
    {r : MemoryChainCollection × Mm × AllocLog}, Exiting s log done rest r →
      5 ∣ rest.length → rest.length ≤ fuel →
      ∃ r', exitSlotsLog fuel done.length r.1 r.2.1 r.2.2 = .ok r' ∧
        Exiting s log (done ++ rest) [] r' := by
  intro fuel
  induction fuel with
  | zero =>
    intro done rest r h h5 hfuel
    obtain rfl : rest = [] := List.length_eq_zero_iff.1 (Nat.le_zero.1 hfuel)
    have hcap : ¬ done.length < r.1.capacity := by simp [h.capacity_eq]
    rw [exitSlotsLog, if_neg fun hlt => hcap hlt.1, List.append_nil]
    exact ⟨_, rfl, h⟩
  | succ fuel ih =>
    intro done rest r h h5 hfuel
    rw [exitSlotsLog]
    split_ifs with hlt
    · have hpos : 0 < rest.length := by
        have := hlt.1
        rw [h.capacity_eq, List.length_append] at this
        omega
      obtain ⟨x₁, x₂, x₃, x₄, x₅, rest, rfl, h5'⟩ := exists_five h5 hpos
      obtain ⟨r₁, heq₁, h₁⟩ := h.step
      obtain ⟨r₂, heq₂, h₂⟩ := h₁.step
      obtain ⟨r₃, heq₃, h₃⟩ := h₂.step
      obtain ⟨r₄, heq₄, h₄⟩ := h₃.step
      obtain ⟨r₅, heq₅, h₅⟩ := h₄.step
      obtain ⟨r', heq', h'⟩ := ih h₅ h5' (by simp only [List.length_cons] at hfuel; omega)
      simp only [List.length_append, List.length_singleton] at heq₁ heq₂ heq₃ heq₄ heq₅ heq'
      refine ⟨r', ?_, by simpa using h'⟩
      simp only [heq₁, heq₂, heq₃, heq₄, heq₅, ok_bind]
      exact heq'
    · -- No chains are left in the rest of the slots.
      refine ⟨_, rfl, h.skip fun c hc => hlt ⟨?_, ?_⟩⟩
      · rw [h.capacity_eq, List.length_append]
        have := List.length_pos_of_mem hc
        omega
      · rw [h.count_eq]
        exact_mod_cast List.countP_pos_iff.2 ⟨some c, hc, rfl⟩

/-! ## The exit -/

/-- The chains that the task holds have been freed, and their pages unlinked, and it has no collection
    any more; all else stays the same. -/
structure Exits (s s' : Mm) (tsk : TaskRef) : Prop where
  linked : s'.Linked
  home_iff : ∀ p c, s'.home p = some c ↔ s.home p = some c ∧ ∀ i, ¬ s.Holds tsk i c
  held : ∀ i c, s.Holds tsk i c → s'.chain c = none
  not_held : ∀ c, (∀ i, ¬ s.Holds tsk i c) → s'.chain c = s.chain c
  mcc_eq : s'.mcc = Function.update s.mcc tsk none

theorem mem_chains {s : Mm} {tsk : TaskRef} {c : ChainRef} :
    some c ∈ (s.table tsk).chains ↔ ∃ i, s.Holds tsk i c := by
  rw [List.mem_iff_getElem?]
  rfl

/-- The chains in the slots of a task are different. -/
theorem Tabled.nodup (ht : s.Tabled) (tsk : TaskRef) :
    ((s.table tsk).chains.filterMap id).Nodup := by
  rw [List.Nodup, List.pairwise_filterMap, List.pairwise_iff_getElem]
  intro i j hi hj hij c hc d hd hcd
  have hci : s.Holds tsk i c := by
    rw [Holds, List.getElem?_eq_getElem hi]
    exact congrArg some hc
  have hdj : s.Holds tsk j c := by
    rw [Holds, List.getElem?_eq_getElem hj, hcd]
    exact congrArg some hd
  exact absurd (ht.slot_eq hci hdj) hij.ne

/-- The loop starts. -/
theorem Exiting.init (hl : s.Linked) (ht : s.Tabled) (tsk : TaskRef) (log : AllocLog) :
    Exiting s log [] (s.table tsk).chains (s.table tsk, s, log) where
  live c hc := by
    obtain ⟨i, hi⟩ := mem_chains.1 hc
    obtain ⟨m, hm, -⟩ := Option.map_eq_some_iff.1 (ht.live tsk i c hi)
    exact ⟨m, hm⟩
  nodup := ht.nodup tsk
  exited := ⟨hl, by simp, by simp, rfl⟩
  chains_eq := rfl
  capacity_eq := (ht.counted tsk).capacity_eq.trans (ht.counted tsk).length_eq.symm
  count_eq := (ht.counted tsk).count_eq
  log_eq := (List.append_nil log).symm

/-- A collection without chains is not examined. -/
theorem exitSlotsLog_of_count (hcount : mcc.count = 0) (fuel : ℕ) :
    exitSlotsLog fuel i mcc s log = .ok (mcc, s, log) := by
  have hlt : ¬ (i < mcc.capacity ∧ 0 < mcc.count) := fun h => by
    rw [hcount] at h
    exact lt_irrefl _ h.2
  cases fuel with
  | zero => rw [exitSlotsLog, if_neg hlt]
  | succ fuel => rw [exitSlotsLog, if_neg hlt]

/-- A task exits. -/
theorem doExitLog_spec (hl : s.Linked) (ht : s.Tabled) (tsk : TaskRef) (log : AllocLog) :
    ∃ s', s.doExitLog tsk log = .ok (s', log ++ frees (s.table tsk).chains ++
        (s.mcc tsk).elim [] fun _ => [.free (.collection tsk)]) ∧ Exits s s' tsk := by
  have hlen := (ht.counted tsk).length_eq
  have hcap := (ht.counted tsk).capacity_eq
  obtain ⟨r, heq, h⟩ := exitSlotsLog_spec (Exiting.init hl ht tsk log) (by rw [hlen]; decide)
    (hlen.le.trans hcap.ge)
  have hnot : ∀ {c}, (∀ i, ¬ s.Holds tsk i c) ↔ some c ∉ (s.table tsk).chains := fun {c} => by
    rw [mem_chains, not_exists]
  have hexit : Exits s (r.2.1.setMcc tsk none) tsk := by
    refine ⟨h.exited.linked.setMcc _ _, fun p c => ?_, fun i c hi => ?_, fun c hc => ?_, ?_⟩
    · rw [hnot]
      exact h.exited.home_iff p c
    · exact (h.exited.chain_eq c).trans (if_pos (mem_chains.2 ⟨i, hi⟩))
    · exact (h.exited.chain_eq c).trans (if_neg (hnot.1 hc))
    · change Function.update r.2.1.mcc tsk none = _
      rw [h.exited.mcc_eq]
  have hlog := h.log_eq
  rw [List.nil_append] at hlog
  rw [doExitLog]
  cases hmcc : s.mcc tsk with
  | none =>
    have hcount : (s.table tsk).count = 0 := by
      rw [table, hmcc]
      rfl
    obtain rfl := Except.ok.inj ((exitSlotsLog_of_count hcount _).symm.trans heq)
    rw [Option.elim_none, List.append_nil, ← hlog]
    exact ⟨_, rfl, hexit⟩
  | some mcc =>
    have htable : s.table tsk = mcc := by rw [table, hmcc, Option.getD_some]
    rw [htable] at heq hlog ⊢
    have heq' : exitSlotsLog mcc.capacity 0 mcc s log = .ok r := heq
    refine ⟨_, ?_, hexit⟩
    simp only [heq', ok_bind]
    rw [pure_eq_ok, ok_bind, hlog]
    rfl

end Mm

end Mcpq.Kernel
