import Mathlib.Tactic

/-!
# Members of containers

Each element of `α` may be at home in one container of `κ`, and each container lists its elements:
the two agree, and an element is listed once (`Members`).

* `Members.attach`, `Members.append`, `Members.detach`, `Members.clear`: the updates of both sides that
  keep them consistent;
* `countP_update`: how the number of the elements listed with a property changes with the property of
  one element.
-/

namespace Mcpq

variable {α κ : Type*}

/-- The containers list the elements at home in them, each once. -/
structure Members (home : α → Option κ) (list : κ → List α) : Prop where
  nodup : ∀ c, (list c).Nodup
  mem_iff : ∀ a c, a ∈ list c ↔ home a = some c

namespace Members

variable {home : α → Option κ} {list : κ → List α} {a : α} {c d : κ}

theorem empty : Members (fun _ : α => none) (fun _ : κ => []) where
  nodup _ := List.nodup_nil
  mem_iff _ _ := by simp

theorem eq_of_mem (h : Members home list) (hc : a ∈ list c) (hd : a ∈ list d) : c = d :=
  Option.some.inj (((h.mem_iff a c).1 hc).symm.trans ((h.mem_iff a d).1 hd))

theorem not_mem (h : Members home list) (ha : home a = none) : a ∉ list c := fun hc => by
  rw [h.mem_iff, ha] at hc
  cases hc

/-- The order of the elements of a container does not matter. -/
theorem perm (h : Members home list) {list' : κ → List α} (hp : ∀ c, (list' c).Perm (list c)) :
    Members home list' where
  nodup c := (hp c).nodup_iff.2 (h.nodup c)
  mem_iff a c := (hp c).mem_iff.trans (h.mem_iff a c)

variable [DecidableEq α] [DecidableEq κ]

/-- An element without a home is added to a container. -/
theorem attach (h : Members home list) (ha : home a = none) (c : κ) :
    Members (Function.update home a (some c)) (Function.update list c (a :: list c)) where
  nodup d := by
    by_cases hd : d = c
    · subst hd
      rw [Function.update_self]
      exact List.nodup_cons.2 ⟨h.not_mem ha, h.nodup d⟩
    · rw [Function.update_of_ne hd]
      exact h.nodup d
  mem_iff b d := by
    by_cases hd : d = c
    · subst hd
      rw [Function.update_self, List.mem_cons]
      by_cases hb : b = a
      · simp [hb]
      · rw [Function.update_of_ne hb, h.mem_iff]
        simp [hb]
    · rw [Function.update_of_ne hd]
      by_cases hb : b = a
      · subst hb
        rw [Function.update_self]
        simp [h.not_mem ha, Ne.symm hd]
      · rw [Function.update_of_ne hb, h.mem_iff]

/-- An element without a home is added to a container, at its end. -/
theorem append (h : Members home list) (ha : home a = none) (c : κ) :
    Members (Function.update home a (some c)) (Function.update list c (list c ++ [a])) := by
  refine (h.attach ha c).perm fun d => ?_
  by_cases hd : d = c
  · subst hd
    rw [Function.update_self, Function.update_self]
    exact List.perm_append_singleton a (list d)
  · rw [Function.update_of_ne hd, Function.update_of_ne hd]

/-- An element is deleted from its container. -/
theorem detach (h : Members home list) (ha : home a = some c) :
    Members (Function.update home a none) (Function.update list c ((list c).erase a)) where
  nodup d := by
    by_cases hd : d = c
    · subst hd
      rw [Function.update_self]
      exact (h.nodup d).erase a
    · rw [Function.update_of_ne hd]
      exact h.nodup d
  mem_iff b d := by
    by_cases hb : b = a
    · subst hb
      rw [Function.update_self]
      by_cases hd : d = c
      · subst hd
        simp [(h.nodup d).mem_erase_iff]
      · rw [Function.update_of_ne hd, h.mem_iff, ha]
        simp [Ne.symm hd]
    · rw [Function.update_of_ne hb]
      by_cases hd : d = c
      · subst hd
        rw [Function.update_self, (h.nodup d).mem_erase_iff, h.mem_iff]
        simp [hb]
      · rw [Function.update_of_ne hd, h.mem_iff]

/-- The elements of a container lose their home. -/
theorem clear (h : Members home list) (c : κ) :
    Members (fun a => if a ∈ list c then none else home a) (Function.update list c []) where
  nodup d := by
    by_cases hd : d = c
    · rw [hd, Function.update_self]
      exact List.nodup_nil
    · rw [Function.update_of_ne hd]
      exact h.nodup d
  mem_iff b d := by
    by_cases hd : d = c
    · subst hd
      rw [Function.update_self]
      split_ifs with hb
      · simp
      · simpa using mt (h.mem_iff b d).2 hb
    · rw [Function.update_of_ne hd, h.mem_iff]
      split_ifs with hb
      · rw [(h.mem_iff b c).1 hb]
        simp [Ne.symm hd]
      · rfl

end Members

variable [DecidableEq α]

/-- The number of the elements with a property, when the property of one of them changes. -/
theorem countP_update {l : List α} (hl : l.Nodup) (p : α → Bool) (a : α) (b : Bool) :
    (l.countP (Function.update p a b) : ℤ) =
      l.countP p + if a ∈ l then (b.toNat : ℤ) - (p a).toNat else 0 := by
  induction l with
  | nil => simp
  | cons x l ih =>
    obtain ⟨hx, hl⟩ := List.nodup_cons.1 hl
    rw [List.countP_cons, List.countP_cons]
    push_cast
    rw [ih hl]
    by_cases hax : a = x
    · subst hax
      rw [if_neg hx, Function.update_self, if_pos List.mem_cons_self]
      cases b <;> cases p a <;> simp
    · rw [Function.update_of_ne (Ne.symm hax)]
      have hiff : a ∈ x :: l ↔ a ∈ l := by simp [hax]
      rw [if_congr hiff rfl rfl]
      ring

/-- A sum over a list, when the term of one element changes by `k`. -/
theorem sum_map_add_ite {l : List α} (hl : l.Nodup) (f : α → ℤ) (a : α) (k : ℤ) :
    (l.map fun x => f x + if x = a then k else 0).sum = (l.map f).sum + if a ∈ l then k else 0 := by
  induction l with
  | nil => simp
  | cons x l ih =>
    obtain ⟨hx, hl⟩ := List.nodup_cons.1 hl
    rw [List.map_cons, List.sum_cons, List.map_cons, List.sum_cons, ih hl]
    by_cases hax : x = a
    · subst hax
      rw [if_pos rfl, if_neg hx, if_pos List.mem_cons_self]
      ring
    · have hiff : a ∈ x :: l ↔ a ∈ l := by simp [Ne.symm hax]
      rw [if_neg hax, if_congr hiff rfl rfl]
      ring

theorem countP_erase_of_mem {l : List α} (p : α → Bool) {a : α} (ha : a ∈ l) :
    ((l.erase a).countP p : ℤ) = l.countP p - (p a).toNat := by
  rw [(List.perm_cons_erase ha).countP_eq p, List.countP_cons]
  cases p a <;> simp

end Mcpq
