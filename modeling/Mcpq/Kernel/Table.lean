import Mcpq.Kernel.Structure

/-!
# The table of chain descriptors

A task holds its chains in the slots of its collection, by their ids (`Tabled`). Linking, breaking and
the use of pages leave the tables alone (`KeepsTables`); a chain is created in the first slot that is
free (`findFreeSlot_spec`, `newMemChain_of_free`), and released from its slot (`rlsMemChain_of_holds`).
-/

namespace Mcpq.Kernel.Mm

variable {s s' s₁ : Mm} {p : PageRef} {c : ChainRef} {m m' : MemoryChain}

/-! ## What leaves the tables alone -/

/-- The collections of the tasks stay the same, and so do the chains that are allocated, with their
    ids. -/
structure KeepsTables (s s' : Mm) : Prop where
  mcc_eq : s'.mcc = s.mcc
  id_eq : ∀ c, (s'.chain c).map MemoryChain.id = (s.chain c).map MemoryChain.id

namespace KeepsTables

theorem refl (s : Mm) : KeepsTables s s := ⟨rfl, fun _ => rfl⟩

theorem trans (h : KeepsTables s s₁) (h' : KeepsTables s₁ s') : KeepsTables s s' where
  mcc_eq := h'.mcc_eq.trans h.mcc_eq
  id_eq c := (h'.id_eq c).trans (h.id_eq c)

theorem modifyPage (s : Mm) (p : PageRef) (f : Page → Page) : KeepsTables s (s.modifyPage p f) :=
  ⟨rfl, fun _ => rfl⟩

/-- The chain keeps its identifier. -/
theorem setChain (hm : s.chain c = some m) (hid : m'.id = m.id) :
    KeepsTables s (s.setChain c (some m')) := by
  refine ⟨rfl, fun d => ?_⟩
  by_cases hd : d = c
  · rw [hd, setChain_self, hm, Option.map_some, Option.map_some, hid]
  · rw [setChain_of_ne _ hd]

theorem modifyChain {f : MemoryChain → MemoryChain} (hf : ∀ m, (f m).id = m.id)
    (heq : s.modifyChain c f = .ok s') : KeepsTables s s' := by
  obtain ⟨m, hm, heq⟩ := bind_eq_ok.1 heq
  obtain rfl := Except.ok.inj heq
  exact setChain (derefChain_eq_ok.1 hm) (hf m)

/-- A loop keeps the tables if its body does. -/
theorem foldlM {α : Type} {f : Mm → α → Result Mm} {l : List α}
    (hf : ∀ a ∈ l, ∀ s s', f s a = .ok s' → KeepsTables s s') (heq : l.foldlM f s = .ok s') :
    KeepsTables s s' :=
  foldlM_invariant (KeepsTables s) (fun a ha _ _ h heq => h.trans (hf a ha _ _ heq)) (.refl s) heq

theorem listDel (heq : listDel m p = .ok m') : m'.id = m.id := by
  rw [Mm.listDel] at heq
  split_ifs at heq
  rw [← Except.ok.inj heq]

/-! ### References -/

theorem activatePage (s : Mm) (p : PageRef) : KeepsTables s (s.activatePage p) := by
  rw [Mm.activatePage]
  dsimp only
  split_ifs
  · exact ⟨rfl, fun _ => rfl⟩
  · exact .refl s

theorem setPageReferenced (heq : s.setPageReferenced p = .ok s') : KeepsTables s s' := by
  refine (modifyPage s p (·.setBit .referenced)).trans ?_
  rw [Mm.setPageReferenced] at heq
  split at heq
  · exact Except.ok.inj heq ▸ .refl _
  · exact modifyChain (fun _ => by rfl) heq

theorem clearPageReferenced (heq : s.clearPageReferenced p = .ok s') : KeepsTables s s' := by
  refine (modifyPage s p (·.clearBit .referenced)).trans ?_
  rw [Mm.clearPageReferenced] at heq
  split at heq
  · exact Except.ok.inj heq ▸ .refl _
  · split_ifs at heq
    · exact modifyChain (fun _ => by rfl) heq
    · exact Except.ok.inj heq ▸ .refl _

theorem testClearPageReferenced {v : Bool} (heq : s.testClearPageReferenced p = .ok (s', v)) :
    KeepsTables s s' := by
  refine (modifyPage s p (·.clearBit .referenced)).trans ?_
  rw [Mm.testClearPageReferenced] at heq
  split at heq
  · obtain ⟨rfl, -⟩ := Prod.mk.inj (Except.ok.inj heq)
    exact .refl _
  · obtain ⟨s₁, heq₁, heq⟩ := bind_eq_ok.1 heq
    obtain ⟨m, -, heq⟩ := bind_eq_ok.1 heq
    obtain ⟨rfl, -⟩ := Prod.mk.inj (Except.ok.inj heq)
    split_ifs at heq₁
    · exact modifyChain (fun _ => by rfl) heq₁
    · exact Except.ok.inj heq₁ ▸ .refl _

/-- Only the counter and the delegate of the chain are set. -/
theorem markPageAccessed (heq : s.markPageAccessed p = .ok s') : KeepsTables s s' := by
  obtain ⟨s₁, heq₁, heq⟩ := bind_eq_ok.1 heq
  have h₁ : KeepsTables s s₁ := by
    rw [resetCounter] at heq₁
    split at heq₁
    · exact Except.ok.inj heq₁ ▸ .refl _
    · exact modifyChain (fun _ => by rfl) heq₁
  refine h₁.trans ?_
  obtain ⟨r, -, heq⟩ := bind_eq_ok.1 heq
  dsimp only at heq
  split_ifs at heq
  · obtain ⟨s₂, heq₂, heq⟩ := bind_eq_ok.1 heq
    exact (setPageReferenced heq₂).trans ((activatePage s₂ p).trans (clearPageReferenced heq))
  · rw [ok_bind] at heq
    exact (activatePage s₁ p).trans (clearPageReferenced heq)
  · exact setPageReferenced heq
  · exact Except.ok.inj heq ▸ .refl _

/-! ### Links -/

variable [Mlock]

theorem unlinkPage (heq : s.unlinkPage p = .ok s') : KeepsTables s s' := by
  rw [Mm.unlinkPage] at heq
  split at heq
  · exact Except.ok.inj heq ▸ .refl _
  · rename_i c _
    obtain ⟨m, hm, heq⟩ := bind_eq_ok.1 heq
    obtain ⟨m₁, hm₁, heq⟩ := bind_eq_ok.1 heq
    -- The page may be unlocked.
    obtain ⟨s₁, hs₁⟩ : ∃ s₁, (if m₁.anchor = some p then s.modifyPage p Mlock.munlockVmaPage else s) =
        s₁ := ⟨_, rfl⟩
    obtain ⟨hk, hchain⟩ : KeepsTables s s₁ ∧ s₁.chain = s.chain := by
      subst hs₁
      split_ifs
      · exact ⟨modifyPage _ _ _, rfl⟩
      · exact ⟨.refl s, rfl⟩
    dsimp only at heq
    rw [hs₁, Mm.resetPage, Bool.false_and, if_neg Bool.false_ne_true] at heq
    obtain rfl := Except.ok.inj heq
    have hm' : s₁.chain c = some m := hchain ▸ derefChain_eq_ok.1 hm
    have hid : m₁.id = m.id := listDel hm₁
    refine hk.trans (.trans ?_ (modifyPage _ p _))
    exact setChain hm' hid

theorem unlinkFromOther (heq : s.unlinkFromOther p = .ok s') : KeepsTables s s' := by
  rw [Mm.unlinkFromOther] at heq
  split at heq
  · exact Except.ok.inj heq ▸ .refl _
  · obtain ⟨s₁, heq₁, heq⟩ := bind_eq_ok.1 heq
    split at heq
    · cases heq
    · exact Except.ok.inj heq ▸ unlinkPage heq₁

/-- The page may leave another chain, whose identifier stays. -/
theorem linkPage (heq : s.linkPage c p = .ok s') : KeepsTables s s' := by
  rw [Mm.linkPage] at heq
  split_ifs at heq
  · exact Except.ok.inj heq ▸ .refl _
  · obtain ⟨s₁, heq₁, heq⟩ := bind_eq_ok.1 heq
    obtain ⟨m, -, heq⟩ := bind_eq_ok.1 heq
    obtain ⟨s₂, heq₂, heq⟩ := bind_eq_ok.1 heq
    obtain ⟨m₂, hm₂, heq⟩ := bind_eq_ok.1 heq
    obtain rfl := Except.ok.inj heq
    have h₂ : s₂ = s₁ := by
      split_ifs at heq₂
      · cases heq₂
      · exact (Except.ok.inj heq₂).symm
    subst h₂
    exact (unlinkFromOther heq₁).trans ((modifyPage _ _ _).trans
      (setChain (s := s₂.modifyPage p _) (derefChain_eq_ok.1 hm₂) rfl))

theorem mlinkPage {anchor addr : ℕ} (heq : s.mlinkPage c anchor addr p = .ok s') :
    KeepsTables s s' := by
  obtain ⟨s₁, heq₁, heq⟩ := bind_eq_ok.1 heq
  obtain ⟨s₂, heq₂, heq⟩ := bind_eq_ok.1 heq
  refine (linkPage heq₁).trans (.trans ?_ (markPageAccessed heq))
  split_ifs at heq₂
  · exact (modifyPage _ _ _).trans (modifyChain (fun _ => by rfl) heq₂)
  · exact Except.ok.inj heq₂ ▸ .refl _

theorem mlinkFound {anchor addr : ℕ} (heq : s.mlinkFound c anchor addr p = .ok s') :
    KeepsTables s s' := by
  obtain ⟨s₁, heq₁, heq⟩ := bind_eq_ok.1 heq
  exact (markPageAccessed heq₁).trans (mlinkPage heq)

/-- The walk of a range keeps the tables. -/
theorem doMlinkPages {vmas : List Vma} {lookup : ℕ → Option PageRef} {start len anchor : ℕ} {r : ℤ}
    (heq : s.doMlinkPages vmas lookup c start len anchor = .ok (s', r)) : KeepsTables s s' :=
  foldlM (fun _ _ _ _ h => mlinkFound h) (doMlinkPages_ok heq)

omit [Mlock] in
theorem resetPage {b : Bool} (heq : s.resetPage p b = .ok s') : KeepsTables s s' := by
  rw [Mm.resetPage] at heq
  dsimp only at heq
  split_ifs at heq
  · split at heq
    · cases heq
    · exact ((modifyPage _ _ _).trans (modifyPage _ _ _)).trans (modifyChain (fun _ => by rfl) heq)
  · exact Except.ok.inj heq ▸ modifyPage _ _ _

omit [Mlock] in
theorem unlinkFromChain (heq : s.unlinkFromChain c p = .ok s') : KeepsTables s s' := by
  obtain ⟨m, hm, heq⟩ := bind_eq_ok.1 heq
  obtain ⟨m₁, hm₁, heq⟩ := bind_eq_ok.1 heq
  exact (setChain (derefChain_eq_ok.1 hm) (listDel hm₁)).trans (resetPage heq)

/-- The chain is emptied, and keeps its slot. -/
theorem unlinkChain (heq : s.unlinkChain c = .ok s') : KeepsTables s s' := by
  obtain ⟨m, hm, heq⟩ := bind_eq_ok.1 heq
  obtain ⟨s₁, heq₁, heq⟩ := bind_eq_ok.1 heq
  obtain ⟨m₁, hm₁, heq⟩ := bind_eq_ok.1 heq
  obtain rfl := Except.ok.inj heq
  refine (foldlM (fun _ _ _ _ h => unlinkFromChain h) heq₁).trans ?_
  rw [derefChain_eq_ok] at hm₁
  cases m₁.anchor with
  | none => exact setChain hm₁ rfl
  | some a => exact (modifyPage _ _ _).trans (setChain (s := s₁.modifyPage a _) hm₁ rfl)

omit [Mlock] in
theorem unlinkChainFast (heq : s.unlinkChainFast c = .ok s') : KeepsTables s s' := by
  obtain ⟨m, -, heq⟩ := bind_eq_ok.1 heq
  refine foldlM (fun p _ s₁ s₂ heq₁ => ?_) heq
  obtain ⟨m₁, hm₁, heq₁⟩ := bind_eq_ok.1 heq₁
  obtain ⟨m₂, hm₂, heq₁⟩ := bind_eq_ok.1 heq₁
  obtain rfl := Except.ok.inj heq₁
  exact (setChain (derefChain_eq_ok.1 hm₁) (listDel hm₂)).trans (modifyPage _ _ _)

/-! ### The page allocator -/

omit [Mlock] in
theorem freePagesChecks (s : Mm) (p : PageRef) (order : ℕ) :
    KeepsTables s (s.freePagesChecks p order).1 := by
  rw [Mm.freePagesChecks]
  refine List.foldlRecOn (motive := fun r : Mm × ℕ => KeepsTables s r.1) _ _ (.refl s) ?_
  exact fun r hr i _ => hr.trans (modifyPage r.1 (p + i) fun _ => _)

theorem freePage (heq : s.freePage p = .ok s') : KeepsTables s s' := by
  obtain ⟨⟨s₁, b⟩, heq₁, heq⟩ := bind_eq_ok.1 heq
  obtain rfl := Except.ok.inj heq
  have h₁ : KeepsTables s s₁ := by
    have hchecks := (modifyPage s p Page.unmapAnon).trans (freePagesChecks _ p 0)
    rw [freePagesPrepare] at heq₁
    split_ifs at heq₁
    · obtain ⟨rfl, -⟩ := Prod.mk.inj (Except.ok.inj heq₁)
      exact hchecks
    · obtain ⟨s₂, heq₂, heq₁⟩ := bind_eq_ok.1 heq₁
      obtain ⟨rfl, -⟩ := Prod.mk.inj (Except.ok.inj heq₁)
      refine hchecks.trans ?_
      rw [unlinkFreed] at heq₂
      split at heq₂
      · exact Except.ok.inj heq₂ ▸ .refl _
      · obtain ⟨s₃, heq₃, heq₂⟩ := bind_eq_ok.1 heq₂
        exact (modifyChain (fun _ => by rfl) heq₃).trans (unlinkPage heq₂)
  refine h₁.trans ?_
  dsimp only
  split_ifs
  · exact ⟨rfl, fun _ => rfl⟩
  · exact .refl _

omit [Mlock] in
theorem allocPage (s : Mm) (p : PageRef) : KeepsTables s (s.allocPage p) := by
  rw [Mm.allocPage, prepNewPage]
  dsimp only
  split_ifs
  all_goals exact ⟨rfl, fun _ => rfl⟩

end KeepsTables

theorem kfreeChain_mcc (heq : s.kfreeChain c = .ok s') : s'.mcc = s.mcc := by
  obtain ⟨m, -, heq⟩ := bind_eq_ok.1 heq
  obtain rfl := Except.ok.inj heq
  rfl

/-! ## The search for a slot -/

/-- What a search for a slot returns: the least slot that is free, or `-1` if none is. -/
def FirstFree (array : List (Option ChainRef)) (r : ℤ) : Prop :=
  (∃ i : ℕ, r = i ∧ array[i]? = some none ∧ ∀ j < i, ∃ c, array[j]? = some (some c)) ∨
    r = -1 ∧ ∀ j < array.length, ∃ c, array[j]? = some (some c)

/-- All the slots before `i` hold chains. -/
def HeldBelow (array : List (Option ChainRef)) (i : ℕ) : Prop :=
  ∀ j < i, ∃ c, array[j]? = some (some c)

section Search

variable {array : List (Option ChainRef)} {i : ℕ}

/-- A slot is examined. -/
theorem examine (hi : i < array.length) (h : HeldBelow array i) {rest : Result ℤ}
    (hrest : HeldBelow array (i + 1) → ∃ r, rest = .ok r ∧ FirstFree array r) :
    ∃ r, (do if (← arrayGet array i).isNone then return (i : ℤ) else rest) = .ok r ∧
      FirstFree array r := by
  have hget : arrayGet array i = .ok array[i] := by
    rw [arrayGet, List.getElem?_eq_getElem hi]
    rfl
  rw [hget, ok_bind]
  cases hx : array[i] with
  | none => exact ⟨i, rfl, .inl ⟨i, rfl, by rw [List.getElem?_eq_getElem hi, hx], h⟩⟩
  | some c =>
    refine hrest fun j hj => ?_
    rcases Nat.lt_succ_iff_lt_or_eq.1 hj with hj | rfl
    · exact h j hj
    · exact ⟨c, by rw [List.getElem?_eq_getElem hi, hx]⟩

/-- The loop, unrolled five times, finds the first free slot: the length is divisible by five. -/
theorem findFreeSlotFrom_spec (h5 : 5 ∣ array.length) : ∀ {fuel i : ℕ}, array.length ≤ fuel + i →
    5 ∣ i → HeldBelow array i →
      ∃ r, findFreeSlotFrom array array.length fuel i = .ok r ∧ FirstFree array r := by
  intro fuel
  induction fuel with
  | zero =>
    intro i hfuel _ h
    rw [findFreeSlotFrom, if_neg (by omega)]
    exact ⟨-1, rfl, .inr ⟨rfl, fun j hj => h j (by omega)⟩⟩
  | succ fuel ih =>
    intro i hfuel hi h
    rw [findFreeSlotFrom]
    by_cases hlt : i < array.length
    · rw [if_pos hlt]
      -- Five slots are left: both numbers are multiples of five.
      have hfive : i + 4 < array.length := by omega
      refine examine (by omega) h fun h => ?_
      refine examine (by omega) h fun h => ?_
      refine examine (by omega) h fun h => ?_
      refine examine (by omega) h fun h => ?_
      refine examine (by omega) h fun h => ?_
      exact ih (by omega) (by omega) h
    · rw [if_neg hlt]
      exact ⟨-1, rfl, .inr ⟨rfl, fun j hj => h j (by omega)⟩⟩

/-- The search ends, within the array, with the least slot that is free. The elements of an array are
    pointers, so that there are fewer of them than the values of `slot`. -/
theorem findFreeSlot_spec (h5 : 5 ∣ array.length) :
    ∃ r, findFreeSlot array array.length = .ok r ∧ FirstFree array r :=
  findFreeSlotFrom_spec h5 (Nat.le_add_right _ _) (dvd_zero 5) fun _ hj => absurd hj (Nat.not_lt_zero _)

end Search

/-! ## Tables -/

/-- The number of the chains in the slots of a collection. -/
def nrLive (mcc : MemoryChainCollection) : ℕ := mcc.chains.countP Option.isSome

/-- A collection counts the chains in its slots. -/
structure Counted (mcc : MemoryChainCollection) : Prop where
  capacity_eq : mcc.capacity = maxNumChains
  length_eq : mcc.chains.length = maxNumChains
  count_eq : mcc.count = nrLive mcc

/-- The collection of a task, or the one that it is given with its first chain. -/
def table (s : Mm) (tsk : TaskRef) : MemoryChainCollection := (s.mcc tsk).getD initMcc

/-- The task holds the chain `c` in the slot `i` of its collection. -/
def Holds (s : Mm) (tsk : TaskRef) (i : ℕ) (c : ChainRef) : Prop :=
  (s.table tsk).chains[i]? = some (some c)

/-- The tables of the tasks: collections count their chains; a chain in a slot is allocated, its id is
    the slot, and no other task holds it. -/
structure Tabled (s : Mm) : Prop where
  counted : ∀ tsk, Counted (s.table tsk)
  live : ∀ tsk i c, s.Holds tsk i c → (s.chain c).map MemoryChain.id = some i
  owner : ∀ tsk tsk' i j c, s.Holds tsk i c → s.Holds tsk' j c → tsk = tsk'

section Tables

variable {mcc : MemoryChainCollection} {tsk tsk' : TaskRef} {i j : ℕ} {d : ChainRef}

theorem nrLive_initMcc : nrLive initMcc = 0 := by
  rw [nrLive, initMcc, List.countP_eq_zero]
  intro x hx
  rw [List.eq_of_mem_replicate hx]
  exact Bool.false_ne_true

/-- A new collection has no chains. -/
theorem counted_initMcc : Counted initMcc where
  capacity_eq := by rw [initMcc]
  length_eq := List.length_replicate ..
  count_eq := by
    rw [nrLive_initMcc]
    rfl

/-- A slot is filled. -/
theorem Counted.fill (h : Counted mcc) (hi : mcc.chains[i]? = some none) (c : ChainRef) :
    Counted { mcc with chains := mcc.chains.set i (some c), count := mcc.count + 1 } := by
  obtain ⟨hlt, hx⟩ := List.getElem?_eq_some_iff.1 hi
  refine ⟨h.capacity_eq, (List.length_set ..).trans h.length_eq, ?_⟩
  rw [nrLive, List.countP_set hlt, hx]
  simp [h.count_eq, nrLive]

/-- A slot is emptied. -/
theorem Counted.empty (h : Counted mcc) (hi : mcc.chains[i]? = some (some c)) :
    Counted { mcc with chains := mcc.chains.set i none, count := mcc.count - 1 } := by
  obtain ⟨hlt, hx⟩ := List.getElem?_eq_some_iff.1 hi
  have hpos : 0 < mcc.chains.countP Option.isSome :=
    List.countP_pos_iff.2 ⟨some c, hx ▸ List.getElem_mem hlt, rfl⟩
  refine ⟨h.capacity_eq, (List.length_set ..).trans h.length_eq, ?_⟩
  rw [nrLive, List.countP_set hlt, hx, h.count_eq, nrLive]
  simp only [Option.isSome_some, if_true, Option.isSome_none, Bool.false_eq_true, if_false, add_zero]
  omega

/-- A task that holds fewer chains than it may has a slot that is free. -/
theorem Counted.firstFree (h : Counted mcc) (hlt : nrLive mcc < maxNumChains) {r : ℤ}
    (hr : FirstFree mcc.chains r) :
    ∃ i : ℕ, r = i ∧ mcc.chains[i]? = some none ∧ HeldBelow mcc.chains i := by
  rcases hr with hr | ⟨-, hall⟩
  · exact hr
  · have hfull : mcc.chains.countP Option.isSome = mcc.chains.length := by
      refine List.countP_eq_length.2 fun x hx => ?_
      obtain ⟨j, hj, rfl⟩ := List.getElem_of_mem hx
      obtain ⟨c, hc⟩ := hall j hj
      obtain ⟨_, hc'⟩ := List.getElem?_eq_some_iff.1 hc
      rw [hc']
      rfl
    rw [nrLive, hfull, h.length_eq] at hlt
    exact absurd hlt (lt_irrefl _)

theorem KeepsTables.table_eq (h : KeepsTables s s') : s'.table = s.table := by
  funext tsk
  rw [table, table, h.mcc_eq]

/-- A call that keeps the tables keeps the invariant. -/
theorem Tabled.keeps (ht : s.Tabled) (h : KeepsTables s s') : s'.Tabled := by
  have hholds : ∀ tsk i c, s'.Holds tsk i c → s.Holds tsk i c := fun tsk i c hc => by
    rwa [Holds, h.table_eq] at hc
  refine ⟨fun tsk => h.table_eq ▸ ht.counted tsk, fun tsk i c hc => ?_,
    fun tsk tsk' i j c hc hc' => ht.owner tsk tsk' i j c (hholds _ _ _ hc) (hholds _ _ _ hc')⟩
  rw [h.id_eq]
  exact ht.live tsk i c (hholds _ _ _ hc)

/-- A task holds a chain in one slot only. -/
theorem Tabled.slot_eq (ht : s.Tabled) (hi : s.Holds tsk i c) (hj : s.Holds tsk' j c) : i = j :=
  Option.some.inj ((ht.live tsk i c hi).symm.trans (ht.live tsk' j c hj))

/-- The collection of a task is set. -/
theorem table_of_mcc {x : Option MemoryChainCollection}
    (h : s'.mcc = Function.update s.mcc tsk x) :
    s'.table = Function.update s.table tsk (x.getD initMcc) := by
  funext tsk'
  rw [table, h]
  by_cases ht : tsk' = tsk
  · rw [ht, Function.update_self, Function.update_self]
  · rw [Function.update_of_ne ht, Function.update_of_ne ht, table]

/-- What a task holds when its table changes to `mcc`. -/
theorem holds_of_table (h : s'.table = Function.update s.table tsk mcc) :
    s'.Holds tsk' j d ↔ if tsk' = tsk then mcc.chains[j]? = some (some d) else s.Holds tsk' j d := by
  rw [Holds, h]
  split_ifs with ht
  · rw [ht, Function.update_self]
  · rw [Function.update_of_ne ht, Holds]

/-! ### Creation -/

/-- A chain is created in the first slot that is free. -/
theorem newMemChain_of_free (h : Counted (s.table tsk)) (hlt : nrLive (s.table tsk) < maxNumChains)
    (addr : ChainRef) :
    ∃ i : ℕ, (s.table tsk).chains[i]? = some none ∧ HeldBelow (s.table tsk).chains i ∧
      s.newMemChain tsk addr =
        .ok ((s.setChain addr (some { id := i })).setMcc tsk (some { s.table tsk with
          chains := (s.table tsk).chains.set i (some addr), count := (s.table tsk).count + 1 }), i) := by
  obtain ⟨mcc, hmcc⟩ : ∃ mcc, s.table tsk = mcc := ⟨_, rfl⟩
  rw [hmcc] at h hlt ⊢
  have h5 : 5 ∣ mcc.chains.length := by
    rw [h.length_eq]
    decide
  obtain ⟨r, hr, hfree⟩ := findFreeSlot_spec h5
  obtain ⟨i, rfl, hi, hbelow⟩ := h.firstFree hlt hfree
  refine ⟨i, hi, hbelow, ?_⟩
  obtain ⟨hlt', -⟩ := List.getElem?_eq_some_iff.1 hi
  have hcount : mcc.count < mcc.capacity := by
    rw [h.count_eq, h.capacity_eq]
    exact_mod_cast hlt
  rw [newMemChain, show (s.mcc tsk).getD initMcc = mcc from hmcc]
  dsimp only
  rw [if_pos hcount, h.capacity_eq, ← h.length_eq, hr, ok_bind, if_pos ⟨Int.natCast_nonneg i, hlt'⟩]
  rfl

/-- A task that holds chains has a collection. -/
theorem mcc_of_nrLive (h : 0 < nrLive (s.table tsk)) : s.mcc tsk = some (s.table tsk) := by
  cases hs : s.mcc tsk with
  | none =>
    rw [table, hs, Option.getD_none, nrLive_initMcc] at h
    exact absurd h (lt_irrefl 0)
  | some mcc => rw [table, hs, Option.getD_some]

/-- A task that holds as many chains as it may gets no other. -/
theorem newMemChain_of_full (h : Counted (s.table tsk)) (hfull : maxNumChains ≤ nrLive (s.table tsk))
    (addr : ChainRef) : s.newMemChain tsk addr = .ok (s, -2) := by
  have hsome := mcc_of_nrLive (Nat.lt_of_lt_of_le (by decide) hfull)
  have hcount : ¬ (s.table tsk).count < (s.table tsk).capacity := by
    rw [h.count_eq, h.capacity_eq, not_lt]
    exact_mod_cast hfull
  rw [newMemChain, show (s.mcc tsk).getD initMcc = s.table tsk from rfl]
  dsimp only
  rw [if_neg hcount, setMcc, ← hsome, Function.update_eq_self]

/-- What the tasks hold when a chain is created in the slot `i`. -/
theorem holds_create (hi : (s.table tsk).chains[i]? = some none)
    (hmcc : s'.mcc = Function.update s.mcc tsk (some { s.table tsk with
      chains := (s.table tsk).chains.set i (some c), count := (s.table tsk).count + 1 })) :
    s'.Holds tsk' j d ↔ s.Holds tsk' j d ∨ tsk' = tsk ∧ j = i ∧ d = c := by
  rw [holds_of_table (table_of_mcc hmcc)]
  split_ifs with htsk
  · subst htsk
    rw [Holds, Option.getD_some]
    by_cases hij : i = j
    · subst hij
      rw [List.getElem?_set_self (List.getElem?_eq_some_iff.1 hi).1, hi]
      simp [eq_comm]
    · rw [List.getElem?_set_ne hij]
      simp [Ne.symm hij]
  · simp [htsk]

/-- A chain is created in the slot `i`. -/
theorem Tabled.create (ht : s.Tabled) (hi : (s.table tsk).chains[i]? = some none)
    (hc : s.chain c = none) (hchain : s'.chain = Function.update s.chain c (some { id := i }))
    (hmcc : s'.mcc = Function.update s.mcc tsk (some { s.table tsk with
      chains := (s.table tsk).chains.set i (some c), count := (s.table tsk).count + 1 })) :
    s'.Tabled := by
  have hne : ∀ {tsk' j d}, s.Holds tsk' j d → d ≠ c := fun hd hdc => by
    have := ht.live _ _ _ hd
    rw [hdc, hc] at this
    cases this
  refine ⟨fun tsk' => ?_, fun tsk' j d hd => ?_, fun tsk₁ tsk₂ j₁ j₂ d h₁ h₂ => ?_⟩
  · rw [table_of_mcc hmcc]
    by_cases htsk : tsk' = tsk
    · rw [htsk, Function.update_self]
      exact (ht.counted tsk).fill hi c
    · rw [Function.update_of_ne htsk]
      exact ht.counted tsk'
  · rw [hchain]
    rcases (holds_create hi hmcc).1 hd with hd | ⟨-, rfl, rfl⟩
    · rw [Function.update_of_ne (hne hd)]
      exact ht.live tsk' j d hd
    · rw [Function.update_self]
      rfl
  · rcases (holds_create hi hmcc).1 h₁ with h₁ | ⟨rfl, -, rfl⟩
    · rcases (holds_create hi hmcc).1 h₂ with h₂ | ⟨-, -, rfl⟩
      · exact ht.owner _ _ _ _ _ h₁ h₂
      · exact absurd rfl (hne h₁)
    · rcases (holds_create hi hmcc).1 h₂ with h₂ | ⟨rfl, -, -⟩
      · exact absurd rfl (hne h₂)
      · rfl

/-! ### Release -/

/-- A descriptor of a chain that the task holds is valid. -/
theorem chainOf_of_holds (h : Counted (s.table tsk)) (hi : s.Holds tsk i c) :
    s.mcc tsk = some (s.table tsk) ∧ s.chainOf tsk i = .ok (some (s.table tsk, c)) := by
  have hlt : i < (s.table tsk).chains.length := (List.getElem?_eq_some_iff.1 hi).1
  cases hmcc : s.mcc tsk with
  | none =>
    rw [Holds, table, hmcc, Option.getD_none, initMcc, List.getElem?_replicate] at hi
    split_ifs at hi
    cases Option.some.inj hi
  | some mcc =>
    have htable : s.table tsk = mcc := by rw [table, hmcc, Option.getD_some]
    rw [Holds, htable] at hi
    rw [htable] at h hlt ⊢
    refine ⟨rfl, ?_⟩
    have hcap : ¬ mcc.capacity ≤ i := by rwa [not_le, h.capacity_eq, ← h.length_eq]
    rw [chainOf, hmcc]
    dsimp only
    rw [if_neg hcap, arrayGet, hi]
    rfl

/-- Another descriptor is not. -/
theorem chainOf_of_not_holds (h : Counted (s.table tsk)) (hi : ∀ c, ¬ s.Holds tsk i c) :
    s.chainOf tsk i = .ok none := by
  rw [chainOf]
  cases hmcc : s.mcc tsk with
  | none => rfl
  | some mcc =>
    have htable : s.table tsk = mcc := by rw [table, hmcc, Option.getD_some]
    rw [htable] at h
    dsimp only
    split_ifs with hcap
    · rfl
    · have hlt : i < mcc.chains.length := by rwa [not_le, h.capacity_eq, ← h.length_eq] at hcap
      have hnone : mcc.chains[i]? = some none := by
        rw [List.getElem?_eq_getElem hlt]
        cases hx : mcc.chains[i] with
        | none => rfl
        | some c =>
          refine absurd ?_ (hi c)
          rw [Holds, htable, List.getElem?_eq_getElem hlt, hx]
      rw [arrayGet, hnone]
      rfl

/-- A chain that the task holds in the slot `i` is released. -/
theorem rlsMemChain_of_holds [Mlock] (hl : s.Linked) (ht : s.Tabled) (hi : s.Holds tsk i c) :
    ∃ s' : Mm, s.rlsMemChain tsk i = .ok (s', 0) ∧ s'.chain = Function.update s.chain c none ∧
      s'.mcc = Function.update s.mcc tsk (some { s.table tsk with
        chains := (s.table tsk).chains.set i none, count := (s.table tsk).count - 1 }) := by
  obtain ⟨-, hchain⟩ := chainOf_of_holds (ht.counted tsk) hi
  obtain ⟨m, hm, -⟩ := Option.map_eq_some_iff.1 (ht.live tsk i c hi)
  obtain ⟨s₁, m', heq₁, hcl, -⟩ := unlinkChain_spec hl hm
  have hm' : s₁.derefChain c = .ok m' :=
    derefChain_eq_ok.2 (by rw [hcl.chain_eq, Function.update_self])
  refine ⟨(s₁.setChain c none).setMcc tsk (some { s.table tsk with
    chains := (s.table tsk).chains.set i none, count := (s.table tsk).count - 1 }), ?_, ?_, ?_⟩
  · rw [rlsMemChain, hchain, ok_bind]
    dsimp only
    rw [heq₁, ok_bind, kfreeChain, hm']
    rfl
  · change Function.update s₁.chain c none = _
    rw [hcl.chain_eq, Function.update_idem]
  · change Function.update s₁.mcc tsk _ = _
    rw [(KeepsTables.unlinkChain heq₁).mcc_eq]

/-- A chain that the task does not hold is not released. -/
theorem rlsMemChain_of_not_holds [Mlock] (ht : s.Tabled) (hi : ∀ c, ¬ s.Holds tsk i c) :
    s.rlsMemChain tsk i = .ok (s, -1) := by
  rw [rlsMemChain, chainOf_of_not_holds (ht.counted tsk) hi]
  rfl

/-- What the tasks hold when the chain in the slot `i` is released. -/
theorem Tabled.holds_release (ht : s.Tabled) (hi : s.Holds tsk i c)
    (hmcc : s'.mcc = Function.update s.mcc tsk (some { s.table tsk with
      chains := (s.table tsk).chains.set i none, count := (s.table tsk).count - 1 })) :
    s'.Holds tsk' j d ↔ s.Holds tsk' j d ∧ d ≠ c := by
  rw [holds_of_table (table_of_mcc hmcc)]
  split_ifs with htsk
  · subst htsk
    rw [Option.getD_some]
    by_cases hij : i = j
    · subst hij
      rw [List.getElem?_set_self (List.getElem?_eq_some_iff.1 hi).1]
      refine iff_of_false (by simp) fun hd => hd.2 ?_
      exact (Option.some.inj (Option.some.inj (hi.symm.trans hd.1))).symm
    · rw [List.getElem?_set_ne hij]
      exact ⟨fun hd => ⟨hd, fun hdc => hij (ht.slot_eq hi (hdc ▸ hd))⟩, And.left⟩
  · exact ⟨fun hd => ⟨hd, fun hdc => htsk (ht.owner _ _ _ _ _ (hdc ▸ hd) hi)⟩, And.left⟩

/-- The chain in the slot `i` is released. -/
theorem Tabled.release (ht : s.Tabled) (hi : s.Holds tsk i c)
    (hchain : s'.chain = Function.update s.chain c none)
    (hmcc : s'.mcc = Function.update s.mcc tsk (some { s.table tsk with
      chains := (s.table tsk).chains.set i none, count := (s.table tsk).count - 1 })) :
    s'.Tabled := by
  refine ⟨fun tsk' => ?_, fun tsk' j d hd => ?_, fun tsk₁ tsk₂ j₁ j₂ d h₁ h₂ =>
    ht.owner _ _ _ _ _ ((ht.holds_release hi hmcc).1 h₁).1 ((ht.holds_release hi hmcc).1 h₂).1⟩
  · rw [table_of_mcc hmcc]
    by_cases htsk : tsk' = tsk
    · rw [htsk, Function.update_self]
      exact (ht.counted tsk).empty hi
    · rw [Function.update_of_ne htsk]
      exact ht.counted tsk'
  · obtain ⟨hd, hdc⟩ := (ht.holds_release hi hmcc).1 hd
    rw [hchain, Function.update_of_ne hdc]
    exact ht.live tsk' j d hd

end Tables

end Mcpq.Kernel.Mm
