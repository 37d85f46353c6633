import Mcpq.Lib.Transition
import Mathlib.Logic.Function.Basic
import Mathlib.Data.Int.Notation
import Mathlib.Data.List.ProdSigma

/-!
# Counters with per-CPU differences

The counters of `vmstat.c`. A zone has a counter for each item, and there is a global one for each item. A
CPU adds what it counts to a difference of its own first (a `Slot`), and only when this is beyond the
threshold of the CPU it is added to the counters of the zone and of the item.

Threads run these functions concurrently, on any CPU, and what they do is split into the accesses that are
atomic each (`exec`): a thread that is not pinned may be on another CPU at each of them, as in the loop of
`mod_state`. The functions that are called with interrupts disabled keep the CPU to themselves, and so
does `refresh_cpu_vm_stats` while it takes a difference.
-/

namespace Mcpq.Kernel.Vmstat

/-- What is stored in an `s8`. -/
def toS8 (x : ℤ) : ℤ := (x + 128) % 256 - 128

/-- A difference: of a CPU, for an item of a zone. -/
structure Slot (C Z I : Type*) where
  cpu : C
  zone : Z
  item : I
  deriving DecidableEq

/-- The counters of the zones, the global ones, and the differences of the CPUs. -/
structure Counters (C Z I : Type*) where
  /-- `vm_stat_diff` of the pagesets. -/
  diff : Slot C Z I → ℤ
  /-- `stat_threshold` of the pagesets. -/
  statThreshold : C → Z → ℤ
  /-- `zone->vm_stat`. -/
  zoneStat : Z → I → ℤ
  /-- `vm_stat`. -/
  vmStat : I → ℤ

/-- A difference that is about to be stored, and the value that it replaces. -/
structure Store (C Z I : Type*) where
  slot : Slot C Z I
  value : ℤ
  old : ℤ

/-- What a thread does next, with its local variables. -/
inductive Pc (C Z I : Type*)
  | idle
  /-- The loop of `mod_state`: the threshold is read, then the difference, and it is replaced. -/
  | modState (zone : Z) (item : I) (delta overstepMode : ℤ)
  | modRead (zone : Z) (item : I) (delta overstepMode t : ℤ)
  | modSwap (zone : Z) (item : I) (delta overstepMode o n z : ℤ)
  /-- `zone_page_state_add`, and maybe a store after it. -/
  | addZone (zone : Z) (item : I) (x : ℤ) (next : Option (Store C Z I))
  | addGlobal (item : I) (x : ℤ) (next : Option (Store C Z I))
  | store (st : Store C Z I)
  /-- `__mod_zone_page_state`. -/
  | modIrq (slot : Slot C Z I) (delta : ℤ)
  /-- `__inc_zone_state`, before and after the difference is incremented. -/
  | incIrq (slot : Slot C Z I)
  | incdIrq (slot : Slot C Z I) (v : ℤ)
  /-- `__dec_zone_state`. -/
  | decIrq (slot : Slot C Z I)
  | decdIrq (slot : Slot C Z I) (v : ℤ)
  /-- `refresh_cpu_vm_stats`: what is left to do, and `global_diff`. -/
  | refresh (cpu : C) (todo : List (Z × I)) (globalDiff : I → ℤ)
  | refreshTake (slot : Slot C Z I) (todo : List (Z × I)) (globalDiff : I → ℤ)
  | refreshAdd (slot : Slot C Z I) (v : ℤ) (todo : List (Z × I)) (globalDiff : I → ℤ)
  | refreshGlobal (todo : List I) (globalDiff : I → ℤ)

variable {C Z I : Type*} [DecidableEq C] [DecidableEq Z] [DecidableEq I]

namespace Counters

def setDiff (s : Counters C Z I) (slot : Slot C Z I) (v : ℤ) : Counters C Z I :=
  { s with diff := Function.update s.diff slot (toS8 v) }

def addZone (s : Counters C Z I) (zone : Z) (item : I) (x : ℤ) : Counters C Z I :=
  let stat := Function.update (s.zoneStat zone) item (s.zoneStat zone item + x)
  { s with zoneStat := Function.update s.zoneStat zone stat }

def addGlobal (s : Counters C Z I) (item : I) (x : ℤ) : Counters C Z I :=
  { s with vmStat := Function.update s.vmStat item (s.vmStat item + x) }

def setThreshold (s : Counters C Z I) (cpu : C) (zone : Z) (t : ℤ) : Counters C Z I :=
  let thresholds := Function.update (s.statThreshold cpu) zone t
  { s with statThreshold := Function.update s.statThreshold cpu thresholds }

end Counters

/-- What a thread does next on a CPU. -/
def exec (items : List I) (s : Counters C Z I) (cpu : C) : Pc C Z I → Counters C Z I × Pc C Z I
  | .idle => (s, .idle)
  | .modState zone item delta overstepMode =>
    (s, .modRead zone item delta overstepMode (s.statThreshold cpu zone))
  | .modRead zone item delta overstepMode t =>
    let o := s.diff ⟨cpu, zone, item⟩
    let n := delta + o
    if t < n ∨ n < -t then
      -- The overflow is added to the zone counters.
      let os := overstepMode * (t / 2)
      (s, .modSwap zone item delta overstepMode o (-os) (n + os))
    else (s, .modSwap zone item delta overstepMode o n 0)
  | .modSwap zone item delta overstepMode o n z =>
    if s.diff ⟨cpu, zone, item⟩ = o then
      (s.setDiff ⟨cpu, zone, item⟩ n, if z ≠ 0 then .addZone zone item z none else .idle)
    else (s, .modState zone item delta overstepMode)
  | .addZone zone item x next => (s.addZone zone item x, .addGlobal item x next)
  | .addGlobal item x next =>
    (s.addGlobal item x, match next with
      | none => .idle
      | some st => .store st)
  | .store st => (s.setDiff st.slot st.value, .idle)
  | .modIrq slot delta =>
    let x := delta + s.diff slot
    let t := s.statThreshold slot.cpu slot.zone
    if t < x ∨ x < -t then (s, .addZone slot.zone slot.item x (some ⟨slot, 0, s.diff slot⟩))
    else (s, .store ⟨slot, x, s.diff slot⟩)
  | .incIrq slot =>
    let v := toS8 (s.diff slot + 1)
    (s.setDiff slot v, .incdIrq slot v)
  | .incdIrq slot v =>
    let t := s.statThreshold slot.cpu slot.zone
    if t < v then
      let overstep := t / 2
      (s, .addZone slot.zone slot.item (v + overstep) (some ⟨slot, -overstep, v⟩))
    else (s, .idle)
  | .decIrq slot =>
    let v := toS8 (s.diff slot - 1)
    (s.setDiff slot v, .decdIrq slot v)
  | .decdIrq slot v =>
    let t := s.statThreshold slot.cpu slot.zone
    if v < -t then
      let overstep := t / 2
      (s, .addZone slot.zone slot.item (v - overstep) (some ⟨slot, overstep, v⟩))
    else (s, .idle)
  | .refresh cpu ((zone, item) :: todo) globalDiff =>
    if s.diff ⟨cpu, zone, item⟩ ≠ 0 then (s, .refreshTake ⟨cpu, zone, item⟩ todo globalDiff)
    else (s, .refresh cpu todo globalDiff)
  | .refresh _ [] globalDiff => (s, .refreshGlobal items globalDiff)
  | .refreshTake slot todo globalDiff =>
    (s.setDiff slot 0, .refreshAdd slot (s.diff slot) todo globalDiff)
  | .refreshAdd slot v todo globalDiff =>
    (s.addZone slot.zone slot.item v, .refresh slot.cpu todo
      (Function.update globalDiff slot.item (globalDiff slot.item + v)))
  | .refreshGlobal (item :: todo) globalDiff =>
    (if globalDiff item ≠ 0 then s.addGlobal item (globalDiff item) else s,
      .refreshGlobal todo globalDiff)
  | .refreshGlobal [] _ => (s, .idle)

/-- The functions that are called. -/
inductive Op (C Z I : Type*)
  | modZonePageState (zone : Z) (item : I) (delta : ℤ)
  | incZoneState (zone : Z) (item : I)
  | decZonePageState (zone : Z) (item : I)
  /-- With interrupts disabled. -/
  | modZonePageStateIrq (slot : Slot C Z I) (delta : ℤ)
  | incZoneStateIrq (slot : Slot C Z I)
  | decZoneStateIrq (slot : Slot C Z I)
  | refreshCpuVmStats (cpu : C)

namespace Op

/-- Where a function starts. -/
def pc (zones : List Z) (items : List I) : Op C Z I → Pc C Z I
  | modZonePageState zone item delta => .modState zone item delta 0
  | incZoneState zone item => .modState zone item 1 1
  | decZonePageState zone item => .modState zone item (-1) (-1)
  | modZonePageStateIrq slot delta => .modIrq slot delta
  | incZoneStateIrq slot => .incIrq slot
  | decZoneStateIrq slot => .decIrq slot
  | refreshCpuVmStats cpu => .refresh cpu (zones.product items) fun _ => 0

/-- What a function counts for an item of a zone. -/
def delta (zone : Z) (item : I) : Op C Z I → ℤ
  | modZonePageState zone' item' delta => if zone' = zone ∧ item' = item then delta else 0
  | incZoneState zone' item' => if zone' = zone ∧ item' = item then 1 else 0
  | decZonePageState zone' item' => if zone' = zone ∧ item' = item then -1 else 0
  | modZonePageStateIrq slot delta => if slot.zone = zone ∧ slot.item = item then delta else 0
  | incZoneStateIrq slot => if slot.zone = zone ∧ slot.item = item then 1 else 0
  | decZoneStateIrq slot => if slot.zone = zone ∧ slot.item = item then -1 else 0
  | refreshCpuVmStats _ => 0

end Op

/-! ## Interleavings -/

namespace Pc

/-- The difference that a thread uses with interrupts disabled. -/
def irqSlot : Pc C Z I → Option (Slot C Z I)
  | modIrq slot _ => some slot
  | incIrq slot => some slot
  | incdIrq slot _ => some slot
  | decIrq slot => some slot
  | decdIrq slot _ => some slot
  | addZone _ _ _ next => next.map Store.slot
  | addGlobal _ _ next => next.map Store.slot
  | store st => some st.slot
  | _ => none

/-- The CPU whose differences a thread uses next, if it is on the CPU given: it is pinned, unless it is in
    `mod_state`. -/
def target (cpu : C) : Pc C Z I → C
  | refresh cpu' _ _ => cpu'
  | refreshTake slot _ _ => slot.cpu
  | refreshAdd slot _ _ _ => slot.cpu
  | pc => (pc.irqSlot.map Slot.cpu).getD cpu

end Pc

/-- The counters, and the threads that are counting. -/
structure State (C Z I T : Type*) where
  counters : Counters C Z I
  pc : T → Pc C Z I
  /-- What has been counted by all functions that were called. -/
  total : Z → I → ℤ

/-- All counters are zero at first, and so are the thresholds. -/
def State.zero {T : Type*} : State C Z I T :=
  ⟨⟨fun _ => 0, fun _ _ => 0, fun _ _ => 0, fun _ => 0⟩, fun _ => .idle, fun _ _ => 0⟩

/-- No thread but the given one has the interrupts of the CPU disabled. -/
def State.Enabled {T : Type*} (s : State C Z I T) (thread : T) (cpu : C) : Prop :=
  ∀ other, other ≠ thread → ∀ slot, (s.pc other).irqSlot = some slot → slot.cpu ≠ cpu

/-- A call, a step of a thread on the CPU it is on, or another threshold. -/
inductive Label (C Z I T : Type*)
  | call (thread : T) (op : Op C Z I)
  | run (thread : T) (cpu : C)
  | setThreshold (cpu : C) (zone : Z) (t : ℤ)

variable {T : Type*} [DecidableEq T]

/-- The steps of the threads. The thresholds are `bound` at most. -/
inductive Step (zones : List Z) (items : List I) (bound : ℤ) :
    State C Z I T → Label C Z I T → State C Z I T → Prop
  | call {s : State C Z I T} {thread : T} {op : Op C Z I} : s.pc thread = .idle →
    (∀ slot, (op.pc zones items).irqSlot = some slot → s.Enabled thread slot.cpu) →
    Step zones items bound s (.call thread op)
      { s with
        pc := Function.update s.pc thread (op.pc zones items)
        total := fun zone item => s.total zone item + op.delta zone item }
  | run {s : State C Z I T} {thread : T} {cpu : C} :
    s.Enabled thread ((s.pc thread).target cpu) →
    Step zones items bound s (.run thread cpu)
      { s with
        counters := (exec items s.counters cpu (s.pc thread)).1
        pc := Function.update s.pc thread (exec items s.counters cpu (s.pc thread)).2 }
  | setThreshold {s : State C Z I T} {cpu : C} {zone : Z} {t : ℤ} : 0 ≤ t → t ≤ bound →
    Step zones items bound s (.setThreshold cpu zone t)
      { s with counters := s.counters.setThreshold cpu zone t }

/-- The threads count, one access at a time. -/
def vmstat (T : Type*) [DecidableEq T] (zones : List Z) (items : List I) (bound : ℤ) :
    Transition (State C Z I T) (Label C Z I T) where
  init s := s = .zero
  step := Step zones items bound

end Mcpq.Kernel.Vmstat
