import Mathlib.Tactic

/-!
# Allocations

A log of an allocator, whose objects are allocated for owners, and the status of an object at its end:
an object is allocated only while it is free, and freed only while it is live; all else is `bad`, for
good. An object that is neither live nor bad has been freed as often as it was allocated, each time
before it was allocated again.
-/

namespace Mcpq

variable {τ ο : Type*}

/-- What an allocator is asked for. -/
inductive AllocEvent (τ ο : Type*)
  | alloc (owner : τ) (o : ο)
  | free (o : ο)

/-- The status of an object. -/
inductive AllocStatus (τ : Type*)
  | free
  | live (owner : τ)
  | bad
  deriving DecidableEq

namespace AllocStatus

variable [DecidableEq ο]

/-- An object is allocated. -/
def alloc (owner : τ) : AllocStatus τ → AllocStatus τ
  | free => live owner
  | _ => bad

/-- An object is released; it is not to be released twice. -/
def release : AllocStatus τ → AllocStatus τ
  | live _ => free
  | _ => bad

/-- What an event does to the object `o`. -/
def next (o : ο) (st : AllocStatus τ) : AllocEvent τ ο → AllocStatus τ
  | .alloc owner o' => if o' = o then st.alloc owner else st
  | .free o' => if o' = o then st.release else st

/-- The status of the object `o` at the end of a log. -/
def ofLog (log : List (AllocEvent τ ο)) (o : ο) : AllocStatus τ := log.foldl (next o) free

theorem ofLog_append (log log' : List (AllocEvent τ ο)) (o : ο) :
    ofLog (log ++ log') o = log'.foldl (next o) (ofLog log o) :=
  List.foldl_append

theorem ofLog_alloc (log : List (AllocEvent τ ο)) (owner : τ) (o o' : ο) :
    ofLog (log ++ [.alloc owner o']) o =
      if o' = o then (ofLog log o).alloc owner else ofLog log o :=
  ofLog_append ..

theorem ofLog_free (log : List (AllocEvent τ ο)) (o o' : ο) :
    ofLog (log ++ [.free o']) o = if o' = o then (ofLog log o).release else ofLog log o :=
  ofLog_append ..

/-- Different objects are freed, one after the other. -/
theorem ofLog_frees (log : List (AllocEvent τ ο)) {os : List ο} (hos : os.Nodup) (o : ο) :
    ofLog (log ++ os.map .free) o = if o ∈ os then (ofLog log o).release else ofLog log o := by
  rw [ofLog_append]
  generalize ofLog log o = st
  induction os generalizing st with
  | nil => rw [if_neg List.not_mem_nil, List.map_nil, List.foldl_nil]
  | cons o' os ih =>
    obtain ⟨ho', hos⟩ := List.nodup_cons.1 hos
    rw [List.map_cons, List.foldl_cons, ih hos]
    by_cases h : o' = o
    · subst h
      rw [if_neg ho', if_pos List.mem_cons_self]
      exact if_pos rfl
    · have hnext : next o st (.free o' : AllocEvent τ ο) = st := if_neg h
      rw [hnext]
      exact if_congr (by simp [Ne.symm h]) rfl rfl

end AllocStatus

end Mcpq
