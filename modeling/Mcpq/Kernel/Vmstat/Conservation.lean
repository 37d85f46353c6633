import Mcpq.Kernel.Vmstat.Counters
import Mathlib.Algebra.BigOperators.Group.Finset.Basic
import Mathlib.Algebra.BigOperators.Group.Finset.Piecewise
import Mathlib.Algebra.Order.BigOperators.Group.Finset
import Mathlib.Algebra.Order.Ring.Int
import Mathlib.Data.Fintype.BigOperators

/-!
# The counters lose nothing

What a thread has taken on but not yet added to a counter is `pending`. A counter, the differences of the
CPUs and what is pending make up what has been counted, after each step of any thread (`Inv`): a step of
one thread keeps their sum (`exec_zoneSum`, `exec_globalSum`), because a value that a thread is about
to replace is not replaced by any other thread before (`PcOk`).

The differences stay within the thresholds, but for one that is just being counted with interrupts
disabled, so that none of them overflows an `s8` and a counter is never off by more than they allow for
(`drift_le`).
-/

namespace Mcpq.Kernel.Vmstat

open Finset

set_option linter.unusedSectionVars false

variable {C Z I T : Type*} [DecidableEq C] [DecidableEq Z] [DecidableEq I] [DecidableEq T]

/-- The values that a difference with a threshold has. -/
def Within (bound x : ℤ) : Prop := -bound ≤ x ∧ x ≤ bound

/-- A value within the bound fits in eight bits. -/
theorem toS8_of_within {bound x : ℤ} (hbound : bound ≤ 125) (h : Within (bound + 1) x) : toS8 x = x := by
  obtain ⟨hlow, hhigh⟩ := h
  rw [toS8]
  omega

/-- A larger bound. -/
theorem Within.mono {bound bound' x : ℤ} (hle : bound ≤ bound') (h : Within bound x) :
    Within bound' x := by
  obtain ⟨hlow, hhigh⟩ := h
  exact ⟨by omega, by omega⟩

/-- The same without the one to spare. -/
theorem Within.toS8 {bound x : ℤ} (h : Within bound x) (hbound : bound ≤ 125) :
    toS8 x = x :=
  toS8_of_within hbound (h.mono (by omega))

/-! ## Pending amounts -/

/-- What a store adds to the differences of an item of a zone. -/
def Store.pendingZone (zone : Z) (item : I) (st : Store C Z I) : ℤ :=
  if st.slot.zone = zone ∧ st.slot.item = item then st.value - st.old else 0

/-- What a store adds to the differences of an item. -/
def Store.pendingGlobal (item : I) (st : Store C Z I) : ℤ :=
  if st.slot.item = item then st.value - st.old else 0

namespace Pc

/-- What a thread still has to add to the counter of a zone, or to the differences. -/
def pendingZone (zone : Z) (item : I) : Pc C Z I → ℤ
  | modState zone' item' delta _ => if zone' = zone ∧ item' = item then delta else 0
  | modRead zone' item' delta _ _ => if zone' = zone ∧ item' = item then delta else 0
  | modSwap zone' item' delta _ _ _ _ => if zone' = zone ∧ item' = item then delta else 0
  | addZone zone' item' x next =>
    (if zone' = zone ∧ item' = item then x else 0) + next.elim 0 (Store.pendingZone zone item)
  | addGlobal _ _ next => next.elim 0 (Store.pendingZone zone item)
  | store st => st.pendingZone zone item
  | modIrq slot delta => if slot.zone = zone ∧ slot.item = item then delta else 0
  | incIrq slot => if slot.zone = zone ∧ slot.item = item then 1 else 0
  | decIrq slot => if slot.zone = zone ∧ slot.item = item then -1 else 0
  | refreshAdd slot v _ _ => if slot.zone = zone ∧ slot.item = item then v else 0
  | _ => 0

/-- What a thread still has to add to the global counter, or to the differences. -/
def pendingGlobal (item : I) : Pc C Z I → ℤ
  | modState _ item' delta _ => if item' = item then delta else 0
  | modRead _ item' delta _ _ => if item' = item then delta else 0
  | modSwap _ item' delta _ _ _ _ => if item' = item then delta else 0
  | addZone _ item' x next =>
    (if item' = item then x else 0) + next.elim 0 (Store.pendingGlobal item)
  | addGlobal item' x next =>
    (if item' = item then x else 0) + next.elim 0 (Store.pendingGlobal item)
  | store st => st.pendingGlobal item
  | modIrq slot delta => if slot.item = item then delta else 0
  | incIrq slot => if slot.item = item then 1 else 0
  | decIrq slot => if slot.item = item then -1 else 0
  | refresh _ _ globalDiff => globalDiff item
  | refreshTake _ _ globalDiff => globalDiff item
  | refreshAdd slot v _ globalDiff => (if slot.item = item then v else 0) + globalDiff item
  | refreshGlobal todo globalDiff => if item ∈ todo then globalDiff item else 0
  | _ => 0

/-- The difference that a thread has changed, or is about to store. -/
def changed : Pc C Z I → Option (Slot C Z I)
  | incdIrq slot _ => some slot
  | decdIrq slot _ => some slot
  | addZone _ _ _ next => next.map Store.slot
  | addGlobal _ _ next => next.map Store.slot
  | store st => some st.slot
  | _ => none

/-- The slot that has been changed is the one that is worked on. -/
theorem irqSlot_of_changed {pc : Pc C Z I} {slot : Slot C Z I} (h : pc.changed = some slot) :
    pc.irqSlot = some slot := by
  cases pc <;> first | exact h | cases h

end Pc

/-! ## Sums -/

namespace Counters

variable [Fintype C] [Fintype Z] (s : Counters C Z I)

/-- The counter of a zone with the differences of the CPUs. -/
def zoneSum (zone : Z) (item : I) : ℤ := s.zoneStat zone item + ∑ cpu, s.diff ⟨cpu, zone, item⟩

/-- The global counter with the differences of the CPUs. -/
def globalSum (item : I) : ℤ := s.vmStat item + ∑ zone, ∑ cpu, s.diff ⟨cpu, zone, item⟩

variable {s} {slot : Slot C Z I} {zone zone' : Z} {item item' : I} {x v : ℤ}

/-- One slot of one CPU is written. -/
theorem diff_setDiff (cpu : C) (hv : toS8 v = v) : (s.setDiff slot v).diff ⟨cpu, zone, item⟩ =
    s.diff ⟨cpu, zone, item⟩ + if cpu = slot.cpu then
      if slot.zone = zone ∧ slot.item = item then v - s.diff slot else 0 else 0 := by
  change Function.update s.diff slot (toS8 v) _ = _
  rw [Function.update_apply, hv]
  by_cases h : (⟨cpu, zone, item⟩ : Slot C Z I) = slot
  · subst h
    rw [if_pos rfl, if_pos rfl, if_pos ⟨rfl, rfl⟩]
    omega
  · rw [if_neg h, ite_eq_right_iff.2, add_zero]
    intro hcpu
    refine if_neg ?_
    rintro ⟨rfl, rfl⟩
    exact h (by rw [hcpu])

/-- The sum over the CPUs changes with the slot. -/
theorem sum_diff_setDiff (hv : toS8 v = v) : ∑ cpu, (s.setDiff slot v).diff ⟨cpu, zone, item⟩ =
    ∑ cpu, s.diff ⟨cpu, zone, item⟩ +
      if slot.zone = zone ∧ slot.item = item then v - s.diff slot else 0 := by
  rw [sum_congr rfl fun cpu _ => diff_setDiff cpu hv, sum_add_distrib, sum_ite_eq' univ slot.cpu,
    if_pos (mem_univ _)]

/-- So does the sum for a zone. -/
theorem zoneSum_setDiff (hv : toS8 v = v) : (s.setDiff slot v).zoneSum zone item =
    s.zoneSum zone item +
      if slot.zone = zone ∧ slot.item = item then v - s.diff slot else 0 := by
  rw [zoneSum, zoneSum, sum_diff_setDiff hv, ← add_assoc]
  rfl

/-- The counter of a zone is changed. -/
theorem zoneSum_addZone : (s.addZone zone' item' x).zoneSum zone item =
    s.zoneSum zone item + if zone' = zone ∧ item' = item then x else 0 := by
  have hstat : (s.addZone zone' item' x).zoneStat zone item =
      s.zoneStat zone item + if zone' = zone ∧ item' = item then x else 0 := by
    change Function.update s.zoneStat zone' _ zone item = _
    rw [Function.update_apply]
    by_cases hz : zone = zone'
    · subst hz
      rw [if_pos rfl, Function.update_apply]
      by_cases hi : item = item'
      · subst hi
        rw [if_pos rfl, if_pos ⟨rfl, rfl⟩]
      · rw [if_neg hi, if_neg fun h => hi h.2.symm, add_zero]
    · rw [if_neg hz, if_neg fun h => hz h.1.symm, add_zero]
  rw [zoneSum, zoneSum, hstat, add_right_comm]
  rfl

/-- The counters of the zones are not the global ones. -/
theorem zoneSum_addGlobal : (s.addGlobal item' x).zoneSum zone item = s.zoneSum zone item := rfl

/-- The global sum changes with the slot of any zone. -/
theorem globalSum_setDiff (hv : toS8 v = v) : (s.setDiff slot v).globalSum item =
    s.globalSum item + if slot.item = item then v - s.diff slot else 0 := by
  rw [globalSum, globalSum, sum_congr rfl fun zone _ => sum_diff_setDiff hv, sum_add_distrib,
    ← add_assoc]
  refine congrArg₂ (· + ·) rfl ?_
  by_cases h : slot.item = item
  · simp only [h, and_true]
    rw [sum_ite_eq univ slot.zone, if_pos (mem_univ _), if_pos trivial]
  · simp only [h, and_false, if_false, sum_const_zero]

/-- The global counters are not the ones of the zones. -/
theorem globalSum_addZone : (s.addZone zone' item' x).globalSum item = s.globalSum item := rfl

/-- A global counter is changed. -/
theorem globalSum_addGlobal : (s.addGlobal item' x).globalSum item =
    s.globalSum item + if item' = item then x else 0 := by
  have hstat : (s.addGlobal item' x).vmStat item =
      s.vmStat item + if item' = item then x else 0 := by
    change Function.update s.vmStat item' _ item = _
    rw [Function.update_apply]
    by_cases hi : item = item'
    · subst hi
      rw [if_pos rfl, if_pos rfl]
    · rw [if_neg hi, if_neg fun h => hi h.symm, add_zero]
  rw [globalSum, globalSum, hstat, add_right_comm]
  rfl

end Counters

/-! ## One step of a thread -/

/-- The difference that is about to be replaced is still the one that has been read. -/
structure Store.Ok (bound : ℤ) (s : Counters C Z I) (st : Store C Z I) : Prop where
  diff_eq : s.diff st.slot = st.old
  value : Within bound st.value
  old : Within (bound + 1) st.old

/-- What a thread relies on. -/
def PcOk (bound : ℤ) (s : Counters C Z I) : Pc C Z I → Prop
  | .modState _ _ _ mode => Within 1 mode
  | .modRead _ _ _ mode t => Within 1 mode ∧ 0 ≤ t ∧ t ≤ bound
  | .modSwap _ _ delta mode o n z => Within 1 mode ∧ Within bound n ∧ n + z = delta + o
  | .addZone _ _ _ next => ∀ st ∈ next, st.Ok bound s
  | .addGlobal _ _ next => ∀ st ∈ next, st.Ok bound s
  | .store st => st.Ok bound s
  | .incdIrq slot v => s.diff slot = v ∧ -bound ≤ v ∧ v ≤ bound + 1
  | .decdIrq slot v => s.diff slot = v ∧ -bound - 1 ≤ v ∧ v ≤ bound
  | .refreshGlobal todo _ => todo.Nodup
  | _ => True

variable {bound : ℤ} {items : List I} {s s' : Counters C Z I} {cpu : C} {pc : Pc C Z I}

/-- A pending store depends on its own slot only. -/
theorem Store.Ok.of_diff {st : Store C Z I} (h : st.Ok bound s)
    (hdiff : s'.diff st.slot = s.diff st.slot) : st.Ok bound s' :=
  ⟨hdiff.trans h.diff_eq, h.value, h.old⟩

/-- What a thread relies on is about the difference that it uses with interrupts disabled. -/
theorem PcOk.of_diff (h : PcOk bound s pc) (hdiff : ∀ slot, pc.irqSlot = some slot →
    s'.diff slot = s.diff slot) : PcOk bound s' pc := by
  cases pc with
  | addZone zone item x next =>
    intro st hst
    exact (h st hst).of_diff (hdiff st.slot (congrArg (Option.map Store.slot) hst))
  | addGlobal item x next =>
    intro st hst
    exact (h st hst).of_diff (hdiff st.slot (congrArg (Option.map Store.slot) hst))
  | store st => exact h.of_diff (hdiff st.slot rfl)
  | incdIrq slot v => exact ⟨(hdiff slot rfl).trans h.1, h.2⟩
  | decdIrq slot v => exact ⟨(hdiff slot rfl).trans h.1, h.2⟩
  | _ => exact h

/-- The steps of a thread, by cases. -/
inductive Exec (items : List I) (s : Counters C Z I) (cpu : C) :
    Pc C Z I → Counters C Z I → Pc C Z I → Prop
  | idle : Exec items s cpu .idle s .idle
  | modState (zone : Z) (item : I) (delta mode : ℤ) : Exec items s cpu
    (.modState zone item delta mode) s (.modRead zone item delta mode (s.statThreshold cpu zone))
  | modOver (zone : Z) (item : I) (delta mode t : ℤ) : Exec items s cpu
    (.modRead zone item delta mode t) s (.modSwap zone item delta mode (s.diff ⟨cpu, zone, item⟩)
      (-(mode * (t / 2))) (delta + s.diff ⟨cpu, zone, item⟩ + mode * (t / 2)))
  | modFit {zone : Z} {item : I} {delta t : ℤ} (mode : ℤ)
    (h : Within t (delta + s.diff ⟨cpu, zone, item⟩)) : Exec items s cpu
    (.modRead zone item delta mode t) s (.modSwap zone item delta mode (s.diff ⟨cpu, zone, item⟩)
      (delta + s.diff ⟨cpu, zone, item⟩) 0)
  | swap (zone : Z) (item : I) (delta mode n z : ℤ) : Exec items s cpu
    (.modSwap zone item delta mode (s.diff ⟨cpu, zone, item⟩) n z)
    (s.setDiff ⟨cpu, zone, item⟩ n) (.addZone zone item z none)
  | swapDone (zone : Z) (item : I) (delta mode n : ℤ) : Exec items s cpu
    (.modSwap zone item delta mode (s.diff ⟨cpu, zone, item⟩) n 0)
    (s.setDiff ⟨cpu, zone, item⟩ n) .idle
  | retry (zone : Z) (item : I) (delta mode o n z : ℤ) : Exec items s cpu
    (.modSwap zone item delta mode o n z) s (.modState zone item delta mode)
  | addZone (zone : Z) (item : I) (x : ℤ) (next : Option (Store C Z I)) : Exec items s cpu
    (.addZone zone item x next) (s.addZone zone item x) (.addGlobal item x next)
  | addGlobal (item : I) (x : ℤ) : Exec items s cpu
    (.addGlobal item x none) (s.addGlobal item x) .idle
  | addGlobalStore (item : I) (x : ℤ) (st : Store C Z I) : Exec items s cpu
    (.addGlobal item x (some st)) (s.addGlobal item x) (.store st)
  | store (st : Store C Z I) : Exec items s cpu (.store st) (s.setDiff st.slot st.value) .idle
  | modIrqOver (slot : Slot C Z I) (delta : ℤ) : Exec items s cpu (.modIrq slot delta) s
    (.addZone slot.zone slot.item (delta + s.diff slot) (some ⟨slot, 0, s.diff slot⟩))
  | modIrqFit {slot : Slot C Z I} {delta : ℤ}
    (h : Within (s.statThreshold slot.cpu slot.zone) (delta + s.diff slot)) : Exec items s cpu
    (.modIrq slot delta) s (.store ⟨slot, delta + s.diff slot, s.diff slot⟩)
  | incIrq (slot : Slot C Z I) : Exec items s cpu (.incIrq slot)
    (s.setDiff slot (toS8 (s.diff slot + 1))) (.incdIrq slot (toS8 (s.diff slot + 1)))
  | incdOver (slot : Slot C Z I) (v : ℤ) : Exec items s cpu (.incdIrq slot v) s
    (.addZone slot.zone slot.item (v + s.statThreshold slot.cpu slot.zone / 2)
      (some ⟨slot, -(s.statThreshold slot.cpu slot.zone / 2), v⟩))
  | incdFit {slot : Slot C Z I} {v : ℤ} (h : v ≤ s.statThreshold slot.cpu slot.zone) :
    Exec items s cpu (.incdIrq slot v) s .idle
  | decIrq (slot : Slot C Z I) : Exec items s cpu (.decIrq slot)
    (s.setDiff slot (toS8 (s.diff slot - 1))) (.decdIrq slot (toS8 (s.diff slot - 1)))
  | decdOver (slot : Slot C Z I) (v : ℤ) : Exec items s cpu (.decdIrq slot v) s
    (.addZone slot.zone slot.item (v - s.statThreshold slot.cpu slot.zone / 2)
      (some ⟨slot, s.statThreshold slot.cpu slot.zone / 2, v⟩))
  | decdFit {slot : Slot C Z I} {v : ℤ} (h : -s.statThreshold slot.cpu slot.zone ≤ v) :
    Exec items s cpu (.decdIrq slot v) s .idle
  | refreshHit (cpu' : C) (zone : Z) (item : I) (todo : List (Z × I)) (globalDiff : I → ℤ) :
    Exec items s cpu (.refresh cpu' ((zone, item) :: todo) globalDiff) s
      (.refreshTake ⟨cpu', zone, item⟩ todo globalDiff)
  | refreshSkip (cpu' : C) (zi : Z × I) (todo : List (Z × I)) (globalDiff : I → ℤ) :
    Exec items s cpu (.refresh cpu' (zi :: todo) globalDiff) s (.refresh cpu' todo globalDiff)
  | refreshEnd (cpu' : C) (globalDiff : I → ℤ) : Exec items s cpu (.refresh cpu' [] globalDiff) s
    (.refreshGlobal items globalDiff)
  | refreshTake (slot : Slot C Z I) (todo : List (Z × I)) (globalDiff : I → ℤ) : Exec items s cpu
    (.refreshTake slot todo globalDiff) (s.setDiff slot 0)
    (.refreshAdd slot (s.diff slot) todo globalDiff)
  | refreshAdd (slot : Slot C Z I) (v : ℤ) (todo : List (Z × I)) (globalDiff : I → ℤ) :
    Exec items s cpu (.refreshAdd slot v todo globalDiff) (s.addZone slot.zone slot.item v)
    (.refresh slot.cpu todo (Function.update globalDiff slot.item (globalDiff slot.item + v)))
  | refreshGlobal (item : I) (todo : List I) (globalDiff : I → ℤ) : Exec items s cpu
    (.refreshGlobal (item :: todo) globalDiff) (s.addGlobal item (globalDiff item))
    (.refreshGlobal todo globalDiff)
  | refreshGlobalSkip {item : I} {todo : List I} {globalDiff : I → ℤ} (h : globalDiff item = 0) :
    Exec items s cpu (.refreshGlobal (item :: todo) globalDiff) s (.refreshGlobal todo globalDiff)
  | refreshGlobalEnd (globalDiff : I → ℤ) : Exec items s cpu (.refreshGlobal [] globalDiff) s .idle

/-- Every step is one of the rules. -/
theorem exec_cases (items : List I) (s : Counters C Z I) (cpu : C) (pc : Pc C Z I) :
    Exec items s cpu pc (exec items s cpu pc).1 (exec items s cpu pc).2 := by
  have hwithin : ∀ {t x : ℤ}, ¬(t < x ∨ x < -t) → Within t x := fun {t x} h => by
    rw [not_or, not_lt, not_lt] at h
    exact ⟨h.2, h.1⟩
  cases pc with
  | idle => exact .idle
  | modState zone item delta mode => exact .modState ..
  | modRead zone item delta mode t =>
    rw [exec]
    split_ifs with h
    · exact .modOver ..
    · exact .modFit mode (hwithin h)
  | modSwap zone item delta mode o n z =>
    rw [exec]
    split_ifs with h hz
    · exact h ▸ .swap ..
    · rw [not_not.1 hz]
      exact h ▸ .swapDone ..
    · exact .retry ..
  | addZone zone item x next => exact .addZone ..
  | addGlobal item x next =>
    cases next with
    | none => exact .addGlobal ..
    | some st => exact .addGlobalStore ..
  | store st => exact .store st
  | modIrq slot delta =>
    rw [exec]
    split_ifs with h
    · exact .modIrqOver ..
    · exact .modIrqFit (hwithin h)
  | incIrq slot => exact .incIrq slot
  | incdIrq slot v =>
    rw [exec]
    split_ifs with h
    · exact .incdOver ..
    · exact .incdFit (not_lt.1 h)
  | decIrq slot => exact .decIrq slot
  | decdIrq slot v =>
    rw [exec]
    split_ifs with h
    · exact .decdOver ..
    · exact .decdFit (not_lt.1 h)
  | refresh cpu' todo globalDiff =>
    cases todo with
    | nil => exact .refreshEnd ..
    | cons zi todo =>
      rw [exec]
      split_ifs with h
      · exact .refreshHit ..
      · exact .refreshSkip ..
  | refreshTake slot todo globalDiff => exact .refreshTake ..
  | refreshAdd slot v todo globalDiff => exact .refreshAdd ..
  | refreshGlobal todo globalDiff =>
    cases todo with
    | nil => exact .refreshGlobalEnd _
    | cons item todo =>
      rw [exec]
      split_ifs with h
      · exact .refreshGlobal ..
      · exact .refreshGlobalSkip (not_not.1 h)

namespace Exec

variable {pc' : Pc C Z I} {slot : Slot C Z I}

/-- No step of these functions changes a threshold. -/
theorem statThreshold_eq (h : Exec items s cpu pc s' pc') :
    s'.statThreshold = s.statThreshold := by
  cases h <;> rfl

/-- A thread changes differences of its CPU only. -/
theorem diff_eq (h : Exec items s cpu pc s' pc') (hslot : slot.cpu ≠ pc.target cpu) :
    s'.diff slot = s.diff slot := by
  have hset : ∀ slot' : Slot C Z I, ∀ v, slot'.cpu = pc.target cpu →
      (s.setDiff slot' v).diff slot = s.diff slot := fun slot' v hcpu => by
    refine Function.update_of_ne ?_ ..
    rintro rfl
    exact hslot hcpu
  cases h with
  | swap => exact hset _ _ rfl
  | swapDone => exact hset _ _ rfl
  | store => exact hset _ _ rfl
  | incIrq => exact hset _ _ rfl
  | decIrq => exact hset _ _ rfl
  | refreshTake => exact hset _ _ rfl
  | _ => rfl

/-- A thread uses the same difference with interrupts disabled, until it enables them. -/
theorem irqSlot_eq (h : Exec items s cpu pc s' pc') (hslot : pc'.irqSlot = some slot) :
    pc.irqSlot = some slot := by
  cases h <;> first | exact hslot | cases hslot

/-- The differences of the CPU are within the threshold, but for one that is to be stored. -/
def Bounded (bound : ℤ) (s : Counters C Z I) (cpu : C) (pc : Pc C Z I) : Prop :=
  ∀ slot : Slot C Z I, slot.cpu = pc.target cpu → Within bound (s.diff slot) ∨ pc.changed = some slot

theorem setDiff_self (slot : Slot C Z I) (v : ℤ) : (s.setDiff slot v).diff slot = toS8 v :=
  Function.update_self ..

/-- The difference that is incremented, or decremented, does not overflow. -/
theorem Bounded.toS8_add {x : ℤ} (h : Bounded bound s cpu pc) (hbound : bound ≤ 125)
    (hover : pc.changed = none) (hslot : slot.cpu = pc.target cpu) (hx : Within 1 x) :
    toS8 (s.diff slot + x) = s.diff slot + x ∧ Within bound (s.diff slot) := by
  have hdiff : Within bound (s.diff slot) := (h slot hslot).resolve_right fun heq => by
    rw [hover] at heq
    cases heq
  refine ⟨toS8_of_within hbound ?_, hdiff⟩
  obtain ⟨hlow, hhigh⟩ := hdiff
  obtain ⟨hxlow, hxhigh⟩ := hx
  exact ⟨by omega, by omega⟩

private theorem none_ne : ¬(none : Option (Slot C Z I)) = some slot := fun h =>
  absurd h.symm (Option.some_ne_none slot)

/-- What a thread relies on holds after its step. -/
theorem pcOk (h : Exec items s cpu pc s' pc') (hbound : bound ≤ 125) (hpc : PcOk bound s pc)
    (hdiff : Bounded bound s cpu pc) (hitems : items.Nodup)
    (hthreshold : ∀ cpu zone, 0 ≤ s.statThreshold cpu zone ∧ s.statThreshold cpu zone ≤ bound) :
    PcOk bound s' pc' := by
  have hhalf : ∀ slot : Slot C Z I, Within bound 0 ∧
      Within bound (s.statThreshold slot.cpu slot.zone / 2) ∧
      Within bound (-(s.statThreshold slot.cpu slot.zone / 2)) := fun slot => by
    have := hthreshold slot.cpu slot.zone
    exact ⟨⟨by omega, by omega⟩, ⟨by omega, by omega⟩, ⟨by omega, by omega⟩⟩
  cases h with
  | modState zone item delta mode => exact ⟨hpc, hthreshold cpu zone⟩
  | modOver zone item delta mode t =>
    obtain ⟨hmode, ht⟩ := hpc
    refine ⟨hmode, ?_, by omega⟩
    obtain ⟨hlow, hhigh⟩ := hmode
    obtain rfl | rfl | rfl : mode = -1 ∨ mode = 0 ∨ mode = 1 := by omega
    · exact ⟨by omega, by omega⟩
    · exact ⟨by omega, by omega⟩
    · exact ⟨by omega, by omega⟩
  | modFit mode h => exact ⟨hpc.1, h.mono hpc.2.2, add_zero _⟩
  | swap => exact fun st hst => absurd hst.symm (Option.some_ne_none st)
  | retry => exact hpc.1
  | addZone => exact fun st hst => (hpc st hst).of_diff rfl
  | addGlobalStore item x st => exact (hpc st rfl).of_diff rfl
  | modIrqOver slot delta =>
    intro st hst
    cases hst
    exact ⟨rfl, (hhalf slot).1, ((hdiff slot rfl).resolve_right none_ne).mono (by omega)⟩
  | @modIrqFit slot delta h =>
    exact ⟨rfl, h.mono (hthreshold _ _).2,
      ((hdiff slot rfl).resolve_right none_ne).mono (by omega)⟩
  | incIrq slot =>
    obtain ⟨hs8, hlow, hhigh⟩ := hdiff.toS8_add hbound rfl (rfl : slot.cpu = _)
      (⟨by decide, by decide⟩ : Within 1 1)
    refine ⟨?_, ?_, ?_⟩
    · rw [hs8, setDiff_self, hs8]
    · omega
    · omega
  | incdOver slot v =>
    intro st hst
    cases hst
    obtain ⟨heq, hlow, hhigh⟩ := hpc
    have hlow' : -(bound + 1) ≤ v := by omega
    exact ⟨heq, (hhalf slot).2.2, hlow', hhigh⟩
  | decIrq slot =>
    obtain ⟨hs8, hlow, hhigh⟩ := hdiff.toS8_add hbound rfl (rfl : slot.cpu = _)
      (⟨by decide, by decide⟩ : Within 1 (-1))
    have hs8 : toS8 (s.diff slot - 1) = s.diff slot - 1 := hs8
    refine ⟨?_, ?_, ?_⟩
    · rw [hs8, setDiff_self, hs8]
    · omega
    · omega
  | decdOver slot v =>
    intro st hst
    cases hst
    obtain ⟨heq, hlow, hhigh⟩ := hpc
    have hlow' : -(bound + 1) ≤ v := by omega
    have hhigh' : v ≤ bound + 1 := by omega
    exact ⟨heq, (hhalf slot).2.1, hlow', hhigh'⟩
  | refreshEnd => exact hitems
  | refreshGlobal => exact hpc.of_cons
  | refreshGlobalSkip => exact hpc.of_cons
  | _ => trivial

/-- The slots stay within the bound when a value within it is stored. -/
theorem within_setDiff {P : Prop} {slot' : Slot C Z I} {v : ℤ} (hbound : bound ≤ 125)
    (hv : Within bound v) (h : Within bound (s.diff slot) ∨ P) :
    Within bound ((s.setDiff slot' v).diff slot) ∨ P := by
  change Within bound (Function.update s.diff slot' (toS8 v) slot) ∨ P
  rw [Function.update_apply, hv.toS8 hbound]
  split_ifs
  · exact .inl hv
  · exact h

/-- The differences are within the threshold after a step, but for one that is to be stored. -/
theorem bounded (h : Exec items s cpu pc s' pc') (hbound : bound ≤ 125) (hpc : PcOk bound s pc)
    (hdiff : Bounded bound s cpu pc)
    (hthreshold : ∀ cpu zone, 0 ≤ s.statThreshold cpu zone ∧ s.statThreshold cpu zone ≤ bound)
    (hslot : slot.cpu = pc.target cpu) :
    Within bound (s'.diff slot) ∨ pc'.changed = some slot := by
  have hold := hdiff slot hslot
  -- The slot that is incremented or decremented.
  have hnext : ∀ {slot' : Slot C Z I} (v : ℤ), Within bound (s.diff slot) →
      Within bound ((s.setDiff slot' v).diff slot) ∨ some slot' = some slot := fun {slot'} v hin => by
    by_cases heq : slot = slot'
    · exact .inr (congrArg some heq.symm)
    · rw [show (s.setDiff slot' v).diff slot = s.diff slot from Function.update_of_ne heq ..]
      exact .inl hin
  cases h with
  | swap => exact within_setDiff hbound hpc.2.1 (hold.imp_right (absurd · none_ne))
  | swapDone => exact within_setDiff hbound hpc.2.1 (hold.imp_right (absurd · none_ne))
  | store st =>
    by_cases heq : slot = st.slot
    · subst heq
      rw [setDiff_self, hpc.value.toS8 hbound]
      exact .inl hpc.value
    · exact within_setDiff hbound hpc.value (hold.imp_right fun h => absurd (Option.some.inj h).symm heq)
  | modIrqOver => exact .inl (hold.resolve_right none_ne)
  | modIrqFit => exact .inl (hold.resolve_right none_ne)
  | incIrq => exact hnext _ (hold.resolve_right none_ne)
  | decIrq => exact hnext _ (hold.resolve_right none_ne)
  | @incdFit slot' v h =>
    refine .inl (hold.elim id fun heq => ?_)
    obtain rfl := Option.some.inj heq
    obtain ⟨rfl, hlow, -⟩ := hpc
    exact ⟨hlow, h.trans (hthreshold _ _).2⟩
  | @decdFit slot' v h =>
    refine .inl (hold.elim id fun heq => ?_)
    obtain rfl := Option.some.inj heq
    obtain ⟨rfl, -, hhigh⟩ := hpc
    exact ⟨(neg_le_neg (hthreshold _ _).2).trans h, hhigh⟩
  | refreshTake slot' =>
    have := hthreshold slot'.cpu slot'.zone
    exact within_setDiff hbound ⟨by omega, by omega⟩ (hold.imp_right (absurd · none_ne))
  | _ => exact hold

/-! ### Sums -/

variable [Fintype C] [Fintype Z]

/-- A step moves an amount from a thread to a counter or a difference, or the other way round. -/
theorem zoneSum_eq (h : Exec items s cpu pc s' pc') (hbound : bound ≤ 125) (hpc : PcOk bound s pc)
    (hdiff : Bounded bound s cpu pc) (zone : Z) (item : I) :
    s'.zoneSum zone item + pc'.pendingZone zone item =
      s.zoneSum zone item + pc.pendingZone zone item := by
  cases h with
  | modState => rfl
  | modOver => rfl
  | modFit => rfl
  | retry => rfl
  | swap zone' item' delta mode n z =>
    rw [Counters.zoneSum_setDiff (hpc.2.1.toS8 hbound)]
    have := hpc.2.2
    simp only [Pc.pendingZone, Option.elim_none]
    split_ifs <;> omega
  | swapDone zone' item' delta mode n =>
    rw [Counters.zoneSum_setDiff (hpc.2.1.toS8 hbound)]
    have := hpc.2.2
    simp only [Pc.pendingZone]
    split_ifs <;> omega
  | addZone zone' item' x next =>
    rw [Counters.zoneSum_addZone]
    simp only [Pc.pendingZone]
    omega
  | addGlobal => rfl
  | addGlobalStore => rfl
  | store st =>
    rw [Counters.zoneSum_setDiff (hpc.value.toS8 hbound), hpc.diff_eq]
    simp only [Pc.pendingZone, Store.pendingZone]
    omega
  | modIrqOver slot delta =>
    simp only [Pc.pendingZone, Option.elim_some, Store.pendingZone]
    split_ifs <;> omega
  | modIrqFit h =>
    simp only [Pc.pendingZone, Store.pendingZone]
    split_ifs <;> omega
  | incIrq slot =>
    obtain ⟨hs8, -⟩ := hdiff.toS8_add hbound rfl (rfl : slot.cpu = _)
      (⟨by decide, by decide⟩ : Within 1 1)
    rw [hs8, Counters.zoneSum_setDiff hs8]
    simp only [Pc.pendingZone]
    split_ifs <;> omega
  | decIrq slot =>
    obtain ⟨hs8, -⟩ := hdiff.toS8_add hbound rfl (rfl : slot.cpu = _)
      (⟨by decide, by decide⟩ : Within 1 (-1))
    have hs8 : toS8 (s.diff slot - 1) = s.diff slot - 1 := hs8
    rw [hs8, Counters.zoneSum_setDiff hs8]
    simp only [Pc.pendingZone]
    split_ifs <;> omega
  | incdOver slot v =>
    simp only [Pc.pendingZone, Option.elim_some, Store.pendingZone]
    split_ifs <;> omega
  | decdOver slot v =>
    simp only [Pc.pendingZone, Option.elim_some, Store.pendingZone]
    split_ifs <;> omega
  | refreshTake slot todo globalDiff =>
    rw [Counters.zoneSum_setDiff rfl]
    simp only [Pc.pendingZone]
    split_ifs <;> omega
  | refreshAdd slot v todo globalDiff =>
    rw [Counters.zoneSum_addZone]
    simp only [Pc.pendingZone]
    omega
  | refreshGlobal item' todo globalDiff => rw [Counters.zoneSum_addGlobal]; rfl
  | _ => rfl

/-- What a step adds to a global counter, it has taken from a slot or from what is pending. -/
theorem globalSum_eq (h : Exec items s cpu pc s' pc') (hbound : bound ≤ 125)
    (hpc : PcOk bound s pc) (hdiff : Bounded bound s cpu pc) (hitems : ∀ item, item ∈ items)
    (item : I) : s'.globalSum item + pc'.pendingGlobal item =
      s.globalSum item + pc.pendingGlobal item := by
  cases h with
  | swap zone' item' delta mode n z =>
    rw [Counters.globalSum_setDiff (hpc.2.1.toS8 hbound)]
    have := hpc.2.2
    simp only [Pc.pendingGlobal, Option.elim_none]
    split_ifs <;> omega
  | swapDone zone' item' delta mode n =>
    rw [Counters.globalSum_setDiff (hpc.2.1.toS8 hbound)]
    have := hpc.2.2
    simp only [Pc.pendingGlobal]
    split_ifs <;> omega
  | addGlobal item' x =>
    rw [Counters.globalSum_addGlobal]
    simp only [Pc.pendingGlobal, Option.elim_none]
    omega
  | addGlobalStore item' x st =>
    rw [Counters.globalSum_addGlobal]
    simp only [Pc.pendingGlobal, Option.elim_some]
    omega
  | store st =>
    rw [Counters.globalSum_setDiff (hpc.value.toS8 hbound), hpc.diff_eq]
    simp only [Pc.pendingGlobal, Store.pendingGlobal]
    omega
  | modIrqOver slot delta =>
    simp only [Pc.pendingGlobal, Option.elim_some, Store.pendingGlobal]
    split_ifs <;> omega
  | modIrqFit h =>
    simp only [Pc.pendingGlobal, Store.pendingGlobal]
    split_ifs <;> omega
  | incIrq slot =>
    obtain ⟨hs8, -⟩ := hdiff.toS8_add hbound rfl (rfl : slot.cpu = _)
      (⟨by decide, by decide⟩ : Within 1 1)
    rw [hs8, Counters.globalSum_setDiff hs8]
    simp only [Pc.pendingGlobal]
    split_ifs <;> omega
  | decIrq slot =>
    obtain ⟨hs8, -⟩ := hdiff.toS8_add hbound rfl (rfl : slot.cpu = _)
      (⟨by decide, by decide⟩ : Within 1 (-1))
    have hs8 : toS8 (s.diff slot - 1) = s.diff slot - 1 := hs8
    rw [hs8, Counters.globalSum_setDiff hs8]
    simp only [Pc.pendingGlobal]
    split_ifs <;> omega
  | incdOver slot v =>
    simp only [Pc.pendingGlobal, Option.elim_some, Store.pendingGlobal]
    split_ifs <;> omega
  | decdOver slot v =>
    simp only [Pc.pendingGlobal, Option.elim_some, Store.pendingGlobal]
    split_ifs <;> omega
  | refreshEnd cpu' globalDiff =>
    simp only [Pc.pendingGlobal, hitems item, if_true]
  | refreshTake slot todo globalDiff =>
    rw [Counters.globalSum_setDiff rfl]
    simp only [Pc.pendingGlobal]
    split_ifs <;> omega
  | refreshAdd slot v todo globalDiff =>
    rw [Counters.globalSum_addZone]
    simp only [Pc.pendingGlobal, Function.update_apply]
    by_cases hi : item = slot.item
    · subst hi
      rw [if_pos rfl, if_pos rfl]
      omega
    · rw [if_neg hi, if_neg fun h => hi h.symm]
      omega
  | refreshGlobal item' todo globalDiff =>
    rw [Counters.globalSum_addGlobal]
    simp only [Pc.pendingGlobal, List.mem_cons]
    by_cases hi : item = item'
    · subst hi
      rw [if_pos rfl, if_neg (List.nodup_cons.1 hpc).1, if_pos (.inl rfl)]
      omega
    · rw [if_neg fun h => hi h.symm]
      simp only [hi, false_or]
      omega
  | @refreshGlobalSkip item' todo globalDiff h =>
    simp only [Pc.pendingGlobal, List.mem_cons]
    by_cases hi : item = item'
    · subst hi
      rw [h]
      split_ifs <;> rfl
    · simp only [hi, false_or]
  | _ => rfl

end Exec

end Mcpq.Kernel.Vmstat
