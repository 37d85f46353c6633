import Mathlib.Tactic
import Mcpq.Lib.Loop

/-!
# Java methods

A Java method is a function of the objects it reads to the objects it leaves, or a *fault*: the
exception it ends with, or a loop that never ends. A reference is an `Option`, `null` being
`none`; an array is a list, indexed by the integers the program computes.

* `deref`: the dereference of a reference;
* `arrayGet`, `arraySet`: the accesses of an array;
* `LogicalClock`: the sequence counter that stamps events.

The counters of clocks and identifiers are unbounded: the executions considered are those in which
none of them wraps around.
-/

namespace Mcpq

/-- The ways a Java method may end other than by returning. -/
inductive Fault
  | nullPointer
  | indexOutOfBounds
  | negativeArraySize
  | illegalArgument
  | arithmetic
  | unsupportedOperation
  | diverges
  deriving DecidableEq, Repr

/-- The result of a Java method: a value, or a fault. -/
abbrev Java := Except Fault

section Java

universe u

variable {α β : Type u}

@[simp] theorem ok_bind (a : α) (f : α → Java β) : (Except.ok a >>= f) = f a := rfl

@[simp] theorem error_bind (e : Fault) (f : α → Java β) :
    ((Except.error e : Java α) >>= f) = .error e := rfl

@[simp] theorem pure_eq_ok (a : α) : (pure a : Java α) = .ok a := rfl

theorem map_eq_ok {x : Java α} {f : α → β} {b : β} (h : x.map f = .ok b) :
    ∃ a, x = .ok a ∧ f a = b := by
  cases x with
  | error e => cases h
  | ok a => exact ⟨a, rfl, Except.ok.inj h⟩

theorem bind_eq_ok {x : Java α} {f : α → Java β} {b : β} (h : x >>= f = .ok b) :
    ∃ a, x = .ok a ∧ f a = .ok b := by
  cases x with
  | error e => cases h
  | ok a => exact ⟨a, rfl, h⟩

/-- If the method returns, its result satisfies `Q`: partial correctness. -/
def Ensures (x : Java α) (Q : α → Prop) : Prop := ∀ a, x = .ok a → Q a

theorem Ensures.ok {Q : α → Prop} {a : α} (h : Q a) : Ensures (.ok a) Q := fun _ heq =>
  Except.ok.inj heq ▸ h

theorem Ensures.error {Q : α → Prop} {e : Fault} : Ensures (.error e) Q := fun _ heq => nomatch heq

theorem Ensures.bind {x : Java α} {P : α → Prop} {f : α → Java β} {Q : β → Prop}
    (hx : Ensures x P) (hf : ∀ a, P a → Ensures (f a) Q) : Ensures (x >>= f) Q := fun b heq => by
  obtain ⟨a, ha, hb⟩ := bind_eq_ok heq
  exact hf a (hx a ha) b hb

/-- A method whose result does not matter. -/
theorem Ensures.any (x : Java α) : Ensures x fun _ => True := fun _ _ => trivial

theorem Ensures.ite {p : Prop} [Decidable p] {x y : Java α} {Q : α → Prop}
    (hx : p → Ensures x Q) (hy : ¬p → Ensures y Q) : Ensures (if p then x else y) Q := by
  split_ifs with hp
  · exact hx hp
  · exact hy hp

end Java

/-- The object a reference points to. -/
def deref {α : Type*} : Option α → Java α
  | some a => .ok a
  | none => .error .nullPointer

@[simp] theorem deref_some {α : Type*} (a : α) : deref (some a) = .ok a := rfl

@[simp] theorem deref_none {α : Type*} : deref (none : Option α) = .error .nullPointer := rfl

/-- The element of an array at the index `i`. -/
def arrayGet {α : Type*} (xs : List α) (i : Int) : Java α :=
  if 0 ≤ i then (xs[i.toNat]?).elim (.error .indexOutOfBounds) .ok else .error .indexOutOfBounds

/-- The array with `x` at the index `i`. -/
def arraySet {α : Type*} (xs : List α) (i : Int) (x : α) : Java (List α) :=
  if 0 ≤ i ∧ i.toNat < xs.length then .ok (xs.set i.toNat x) else .error .indexOutOfBounds

theorem arrayGet_natCast {α : Type*} {xs : List α} {i : ℕ} {x : α} (h : xs[i]? = some x) :
    arrayGet xs i = .ok x := by
  simp [arrayGet, h]

theorem arraySet_natCast {α : Type*} {xs : List α} {i : ℕ} (h : i < xs.length) (x : α) :
    arraySet xs i x = .ok (xs.set i x) := by
  simp [arraySet, h]

/-- A loop over an array without `null`. -/
theorem foldlM_deref {α β : Type} (f : β → α → β) (l : List α) (b : β) :
    (l.map some).foldlM (fun b a => deref a >>= fun a => (pure (f b a) : Java β)) b =
      .ok (l.foldl f b) := by
  induction l generalizing b with
  | nil => rfl
  | cons a l ih =>
    rw [List.map_cons, List.foldlM_cons, deref_some]
    exact ih (f b a)

/-- A clock that counts its own ticks. -/
structure LogicalClock where
  counter : ℕ := 0
  deriving DecidableEq, Repr

namespace LogicalClock

/-- The current value of the clock. -/
def current (c : LogicalClock) : ℕ := c.counter

/-- The clock after a tick: its current value is the sequence value generated. -/
def generate (c : LogicalClock) : LogicalClock := ⟨c.counter + 1⟩

@[simp] theorem current_generate (c : LogicalClock) : c.generate.current = c.current + 1 := rfl

end LogicalClock

end Mcpq
