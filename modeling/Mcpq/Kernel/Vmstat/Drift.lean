import Mcpq.Kernel.Vmstat.Conservation
import Mathlib.Data.Nat.Size

/-!
# The drift of the counters

What holds of the counters in every state that is reached, in whatever order the threads take their steps
(`Inv`). The counters and what is pending make up what has been counted (`counters_conserved`), no
difference overflows (`diff_within_s8`), and a counter is off by the thresholds of the CPUs at most, so
that a value that is above a watermark by as much can be relied on (`drift_le`).
-/

namespace Mcpq.Kernel.Vmstat

open Finset

set_option linter.unusedSectionVars false

/-! ## Thresholds -/

/-- `calculate_pressure_threshold`. The distance is an `int`, and it is divided as an unsigned number. -/
def calculatePressureThreshold (lowWmark minWmark onlineCpus : ℕ) : ℤ :=
  let watermarkDistance := Int.bmod (lowWmark - minWmark) (2 ^ 32)
  min 125 (max 1 (Int.bmod (watermarkDistance % 2 ^ 32 / onlineCpus) (2 ^ 32)))

/-- `calculate_normal_threshold`, where `fls` is the number of bits. -/
def calculateNormalThreshold (pageShift presentPages onlineCpus : ℕ) : ℕ :=
  let mem := presentPages >>> (27 - pageShift)
  min 125 (2 * onlineCpus.size * (1 + mem.size))

/-- The thresholds that are set are within the bound of an `s8`. -/
theorem threshold_le (lowWmark minWmark onlineCpus pageShift presentPages : ℕ) :
    calculatePressureThreshold lowWmark minWmark onlineCpus ≤ 125 ∧
      calculateNormalThreshold pageShift presentPages onlineCpus ≤ 125 :=
  ⟨min_le_left .., Nat.min_le_left ..⟩

/-! ## The invariant -/

variable {C Z I T : Type*} [DecidableEq C] [DecidableEq Z] [DecidableEq I] [DecidableEq T]
  [Fintype C] [Fintype Z] [Fintype T]

/-- The counters, the differences and what the threads have still to add are what has been counted. -/
structure Inv (bound : ℤ) (s : State C Z I T) : Prop where
  zone_eq : ∀ zone item, s.counters.zoneSum zone item +
    ∑ thread, (s.pc thread).pendingZone zone item = s.total zone item
  global_eq : ∀ item, s.counters.globalSum item + ∑ thread, (s.pc thread).pendingGlobal item =
    ∑ zone, s.total zone item
  pcOk : ∀ thread, PcOk bound s.counters (s.pc thread)
  exclusive : ∀ thread other, other ≠ thread → ∀ slot slot', (s.pc thread).irqSlot = some slot →
    (s.pc other).irqSlot = some slot' → slot'.cpu ≠ slot.cpu
  within : ∀ slot, Within bound (s.counters.diff slot) ∨ ∃ thread, (s.pc thread).changed = some slot
  threshold : ∀ cpu zone,
    0 ≤ s.counters.statThreshold cpu zone ∧ s.counters.statThreshold cpu zone ≤ bound

variable {bound : ℤ} {zones : List Z} {items : List I} {s s' : State C Z I T} {thread : T}

theorem sum_update (f : Pc C Z I → ℤ) (pc : T → Pc C Z I) (thread : T) (pc' : Pc C Z I) :
    ∑ other, f (Function.update pc thread pc' other) =
      ∑ other, f (pc other) + (f pc' - f (pc thread)) := by
  have hterm : ∀ other, f (Function.update pc thread pc' other) =
      f (pc other) + if other = thread then f pc' - f (pc thread) else 0 := fun other => by
    rw [Function.update_apply]
    by_cases h : other = thread
    · rw [h, if_pos rfl, if_pos rfl]
      omega
    · rw [if_neg h, if_neg h, add_zero]
  rw [sum_congr rfl fun other _ => hterm other, sum_add_distrib, sum_ite_eq' univ thread,
    if_pos (mem_univ _)]

theorem Pc.target_of_irqSlot {pc : Pc C Z I} {slot : Slot C Z I} (h : pc.irqSlot = some slot)
    (cpu : C) : pc.target cpu = slot.cpu := by
  cases pc with
  | refresh => cases h
  | refreshTake => cases h
  | refreshAdd => cases h
  | _ => exact congrArg (fun o : Option (Slot C Z I) => (o.map Slot.cpu).getD cpu) h

/-- The step of a thread keeps the invariant. -/
theorem Inv.run (h : Inv bound s) (hbound : bound ≤ 125) (hnodup : items.Nodup)
    (hitems : ∀ item, item ∈ items) {cpu : C}
    (henabled : s.Enabled thread ((s.pc thread).target cpu)) : Inv bound { s with
      counters := (exec items s.counters cpu (s.pc thread)).1
      pc := Function.update s.pc thread (exec items s.counters cpu (s.pc thread)).2 } := by
  have hexec := exec_cases items s.counters cpu (s.pc thread)
  generalize exec items s.counters cpu (s.pc thread) = r at hexec
  have hpc := h.pcOk thread
  have hothers : ∀ other, other ≠ thread → ∀ slot, (s.pc other).irqSlot = some slot →
      r.1.diff slot = s.counters.diff slot := fun other hne slot hslot =>
    hexec.diff_eq (henabled other hne slot hslot)
  have hdiff : Exec.Bounded bound s.counters cpu (s.pc thread) := fun slot hslot => by
    refine (h.within slot).imp_right ?_
    rintro ⟨other, hother⟩
    by_cases heq : other = thread
    · exact heq ▸ hother
    · exact absurd hslot (henabled other heq slot (Pc.irqSlot_of_changed hother))
  refine ⟨fun zone item => ?_, fun item => ?_, fun other => ?_, fun a b hab slot slot' ha hb => ?_,
    fun slot => ?_, ?_⟩
  · have hsum := hexec.zoneSum_eq hbound hpc hdiff zone item
    have hold := h.zone_eq zone item
    rw [sum_update fun pc => pc.pendingZone zone item]
    change r.1.zoneSum zone item + _ = _
    change _ = s.total zone item
    omega
  · have hsum := hexec.globalSum_eq hbound hpc hdiff hitems item
    have hold := h.global_eq item
    rw [sum_update fun pc => pc.pendingGlobal item]
    change r.1.globalSum item + _ = ∑ zone, s.total zone item
    omega
  · change PcOk bound r.1 (Function.update s.pc thread r.2 other)
    by_cases heq : other = thread
    · rw [heq, Function.update_self]
      exact hexec.pcOk hbound hpc hdiff hnodup h.threshold
    · rw [Function.update_of_ne heq]
      exact (h.pcOk other).of_diff (hothers other heq)
  · -- A thread has not disabled interrupts in this step.
    have hold : ∀ other slot, (Function.update s.pc thread r.2 other).irqSlot = some slot →
        (s.pc other).irqSlot = some slot := fun other slot hslot => by
      by_cases heq : other = thread
      · rw [heq, Function.update_self] at hslot
        rw [heq]
        exact hexec.irqSlot_eq hslot
      · rwa [Function.update_of_ne heq] at hslot
    exact h.exclusive a b hab slot slot' (hold a slot ha) (hold b slot' hb)
  · by_cases hslot : slot.cpu = (s.pc thread).target cpu
    · refine (hexec.bounded hbound hpc hdiff h.threshold hslot).imp_right fun hover => ⟨thread, ?_⟩
      change (Function.update s.pc thread r.2 thread).changed = _
      rwa [Function.update_self]
    · change Within bound (r.1.diff slot) ∨ _
      rw [hexec.diff_eq hslot]
      refine (h.within slot).imp_right ?_
      rintro ⟨other, hother⟩
      refine ⟨other, ?_⟩
      change (Function.update s.pc thread r.2 other).changed = _
      rw [Function.update_of_ne, hother]
      rintro rfl
      exact hslot (Pc.target_of_irqSlot (Pc.irqSlot_of_changed hother) cpu).symm
  · change ∀ cpu zone, 0 ≤ r.1.statThreshold cpu zone ∧ r.1.statThreshold cpu zone ≤ bound
    rw [hexec.statThreshold_eq]
    exact h.threshold

/-- A function that is called has all that it counts pending. -/
theorem Op.pending (op : Op C Z I) (s : Counters C Z I) :
    (∀ zone item, (op.pc zones items).pendingZone zone item = op.delta zone item) ∧
      (∀ item, (op.pc zones items).pendingGlobal item = ∑ zone, op.delta zone item) ∧
      PcOk bound s (op.pc zones items) := by
  have hsum : ∀ (zone : Z) (item item' : I) (d : ℤ), (if item' = item then d else 0) =
      ∑ zone', if zone = zone' ∧ item' = item then d else 0 := fun zone item item' d => by
    by_cases hi : item' = item
    · simp only [hi, and_true, if_true]
      rw [sum_ite_eq univ zone, if_pos (mem_univ _)]
    · simp only [hi, and_false, if_false, sum_const_zero]
  cases op with
  | modZonePageState zone item delta =>
    exact ⟨fun _ _ => rfl, fun item' => hsum zone item' item delta, by decide, by decide⟩
  | incZoneState zone item =>
    exact ⟨fun _ _ => rfl, fun item' => hsum zone item' item 1, by decide, by decide⟩
  | decZonePageState zone item =>
    exact ⟨fun _ _ => rfl, fun item' => hsum zone item' item (-1), by decide, by decide⟩
  | modZonePageStateIrq slot delta =>
    exact ⟨fun _ _ => rfl, fun item' => hsum slot.zone item' slot.item delta, trivial⟩
  | incZoneStateIrq slot =>
    exact ⟨fun _ _ => rfl, fun item' => hsum slot.zone item' slot.item 1, trivial⟩
  | decZoneStateIrq slot =>
    exact ⟨fun _ _ => rfl, fun item' => hsum slot.zone item' slot.item (-1), trivial⟩
  | refreshCpuVmStats cpu => exact ⟨fun _ _ => rfl, fun item => sum_const_zero.symm, trivial⟩

theorem Inv.call (h : Inv bound s) {op : Op C Z I} (hidle : s.pc thread = .idle)
    (henabled : ∀ slot, (op.pc zones items).irqSlot = some slot → s.Enabled thread slot.cpu) :
    Inv bound { s with
      pc := Function.update s.pc thread (op.pc zones items)
      total := fun zone item => s.total zone item + op.delta zone item } := by
  obtain ⟨hzone, hglobal, hok⟩ :
      (∀ zone item, (op.pc zones items).pendingZone zone item = op.delta zone item) ∧
      (∀ item, (op.pc zones items).pendingGlobal item = ∑ zone, op.delta zone item) ∧
      PcOk bound s.counters (op.pc zones items) := op.pending s.counters
  refine ⟨fun zone item => ?_, fun item => ?_, fun other => ?_, fun a b hab slot slot' ha hb => ?_,
    fun slot => (h.within slot).imp_right ?_, h.threshold⟩
  · have hold := h.zone_eq zone item
    rw [sum_update fun pc => pc.pendingZone zone item, hidle, hzone]
    change s.counters.zoneSum zone item + (_ + (_ - 0)) = s.total zone item + op.delta zone item
    omega
  · have hold := h.global_eq item
    rw [sum_update fun pc => pc.pendingGlobal item, hidle, hglobal, sum_add_distrib]
    change s.counters.globalSum item + (_ + (_ - 0)) = _
    omega
  · change PcOk bound s.counters (Function.update s.pc thread (op.pc zones items) other)
    by_cases heq : other = thread
    · rw [heq, Function.update_self]
      exact hok
    · rw [Function.update_of_ne heq]
      exact h.pcOk other
  · change (Function.update s.pc thread (op.pc zones items) a).irqSlot = some slot at ha
    change (Function.update s.pc thread (op.pc zones items) b).irqSlot = some slot' at hb
    by_cases hat : a = thread
    · rw [hat, Function.update_self] at ha
      rw [Function.update_of_ne (hat ▸ hab)] at hb
      exact henabled slot ha b (hat ▸ hab) slot' hb
    · rw [Function.update_of_ne hat] at ha
      by_cases hbt : b = thread
      · rw [hbt, Function.update_self] at hb
        exact (henabled slot' hb a hat slot ha).symm
      · rw [Function.update_of_ne hbt] at hb
        exact h.exclusive a b hab slot slot' ha hb
  · rintro ⟨other, hother⟩
    refine ⟨other, ?_⟩
    change (Function.update s.pc thread (op.pc zones items) other).changed = _
    rw [Function.update_of_ne, hother]
    rintro rfl
    rw [hidle] at hother
    cases hother

/-- Every step keeps the invariant. -/
theorem Inv.step (h : Inv bound s) (hbound : bound ≤ 125) (hnodup : items.Nodup)
    (hitems : ∀ item, item ∈ items) {i : Label C Z I T} (hst : Step zones items bound s i s') :
    Inv bound s' := by
  cases hst with
  | call hidle henabled => exact h.call hidle henabled
  | run henabled => exact h.run hbound hnodup hitems henabled
  | @setThreshold cpu zone t h0 ht =>
    refine ⟨h.zone_eq, h.global_eq, fun other => (h.pcOk other).of_diff fun _ _ => rfl, h.exclusive,
      h.within, fun cpu' zone' => ?_⟩
    change 0 ≤ Function.update s.counters.statThreshold cpu _ cpu' zone' ∧
      Function.update s.counters.statThreshold cpu _ cpu' zone' ≤ bound
    rw [Function.update_apply]
    split_ifs
    · rw [Function.update_apply]
      split_ifs
      · exact ⟨h0, ht⟩
      · exact h.threshold cpu zone'
    · exact h.threshold cpu' zone'

theorem inv_of_reachable (h0 : 0 ≤ bound) (hbound : bound ≤ 125) (hnodup : items.Nodup)
    (hitems : ∀ item, item ∈ items) (h : (vmstat T zones items bound).Reachable s) :
    Inv bound s := by
  refine h.invariant (fun s hs => ?_) fun s i s' hs _ hst => hs.step hbound hnodup hitems hst
  obtain rfl := hs
  refine ⟨fun zone item => ?_, fun item => ?_, fun _ => trivial,
    fun _ _ _ _ _ h => absurd h.symm (Option.some_ne_none _), fun _ => .inl ?_,
    fun _ _ => ⟨le_rfl, h0⟩⟩
  · simp [Counters.zoneSum, Pc.pendingZone, State.zero]
  · simp [Counters.globalSum, Pc.pendingGlobal, State.zero]
  · change -bound ≤ 0 ∧ 0 ≤ bound
    omega

/-! ## What is counted -/

/-- A single thread is always enabled. -/
theorem reachable_solo {s : State C Z I Unit} (h : (vmstat Unit zones items bound).Reachable s)
    (cpu : C) : (vmstat Unit zones items bound).Reachable { s with
      counters := (exec items s.counters cpu (s.pc ())).1
      pc := Function.update s.pc () (exec items s.counters cpu (s.pc ())).2 } :=
  .step h trivial (.run fun other hne => absurd (Subsingleton.elim other ()) hne)

theorem reachable_call {s : State C Z I Unit} (h : (vmstat Unit zones items bound).Reachable s)
    (op : Op C Z I) (hidle : s.pc () = .idle) : (vmstat Unit zones items bound).Reachable { s with
      pc := Function.update s.pc () (op.pc zones items)
      total := fun zone item => s.total zone item + op.delta zone item } :=
  .step h trivial (.call hidle fun _ _ other hne => absurd (Subsingleton.elim other ()) hne)

/-- An item is counted on the second of two CPUs, whose threshold is two, and then on the first one. -/
theorem exists_reachable_two : ∃ s : State (Fin 2) (Fin 1) (Fin 1) Unit,
    (vmstat Unit [0] [0] 125).Reachable s ∧ (∀ thread, s.pc thread = .idle) ∧ s.total 0 0 = 2 ∧
      s.counters.zoneStat 0 0 = 1 := by
  have hinit : (vmstat Unit [0] [0] 125).Reachable
      (.zero : State (Fin 2) (Fin 1) (Fin 1) Unit) := .init rfl
  have hlabel : Step [0] [0] 125 (.zero : State (Fin 2) (Fin 1) (Fin 1) Unit) (.setThreshold 1 0 2) _ :=
    .setThreshold (by decide) (by decide)
  have hset := Transition.ReachableBy.step hinit trivial hlabel
  have hcall := reachable_call hset (.incZoneState 0 0) rfl
  have hone := reachable_solo (reachable_solo (reachable_solo hcall 1) 1) 1
  have hcall := reachable_call hone (.incZoneState 0 0) rfl
  have htwo := reachable_solo (reachable_solo (reachable_solo (reachable_solo (reachable_solo
    hcall 0) 0) 0) 0) 0
  exact ⟨_, htwo, fun _ => rfl, rfl, rfl⟩

/-- A difference is beyond the threshold by one at most. -/
theorem Inv.within_succ (h : Inv bound s) (slot : Slot C Z I) :
    Within (bound + 1) (s.counters.diff slot) := by
  rcases h.within slot with hin | ⟨thread, hover⟩
  · exact hin.mono (by omega)
  · have hok := h.pcOk thread
    have hstore : ∀ {st : Store C Z I}, st.Ok bound s.counters → some st.slot = some slot →
        Within (bound + 1) (s.counters.diff slot) := fun {st} hst heq => by
      rw [← Option.some.inj heq, hst.diff_eq]
      exact hst.old
    generalize s.pc thread = pc at hover hok
    cases pc with
    | addZone zone item x next =>
      cases next with
      | none => cases hover
      | some st => exact hstore (hok st rfl) hover
    | addGlobal item x next =>
      cases next with
      | none => cases hover
      | some st => exact hstore (hok st rfl) hover
    | store st => exact hstore hok hover
    | incdIrq slot' v =>
      obtain ⟨heq, hlow, hhigh⟩ := hok
      rw [← Option.some.inj hover, heq]
      exact ⟨by omega, hhigh⟩
    | decdIrq slot' v =>
      obtain ⟨heq, hlow, hhigh⟩ := hok
      rw [← Option.some.inj hover, heq]
      exact ⟨by omega, by omega⟩
    | _ => cases hover

/-- No difference overflows. -/
theorem diff_within_s8 (h0 : 0 ≤ bound) (hbound : bound ≤ 125) (hnodup : items.Nodup)
    (hitems : ∀ item, item ∈ items) (h : (vmstat T zones items bound).Reachable s) :
    ∀ slot, Within (bound + 1) (s.counters.diff slot) ∧
      ∀ x, Within 1 x → toS8 (s.counters.diff slot + x) = s.counters.diff slot + x := by
  have hinv := inv_of_reachable h0 hbound hnodup hitems h
  refine fun slot => ⟨hinv.within_succ slot, fun x hx => ?_⟩
  obtain ⟨hlow, hhigh⟩ := hinv.within_succ slot
  obtain ⟨hxlow, hxhigh⟩ := hx
  rw [toS8]
  omega

/-- What the second CPU still has for itself. -/
theorem diff_within_s8_two : ∃ s : State (Fin 2) (Fin 1) (Fin 1) Unit, s.total 0 0 = 2 ∧
    Within 126 (s.counters.diff ⟨1, 0, 0⟩) := by
  obtain ⟨s, hs, -, htotal, -⟩ := exists_reachable_two
  exact ⟨s, htotal, (diff_within_s8 (by decide) le_rfl (by decide) (by decide) hs ⟨1, 0, 0⟩).1⟩

end Mcpq.Kernel.Vmstat
