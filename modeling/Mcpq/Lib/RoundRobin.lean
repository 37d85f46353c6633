import Mathlib.Tactic
import Mathlib.Data.Prod.Lex

/-!
# Round robin

A loop that goes around a ring of places, and visits the state of each until it comes to a place whose
state stops it (`go`).

When a state stops the loop at the visit that follows `rank` others, or never (`Rank`), the loop ends at
the place of least rank, and at the first of these (`Rank.go_eq_some`): it has made as many rounds as
that rank, and a part of the next one.
-/

namespace Mcpq.RoundRobin

variable {α σ : Type*} [DecidableEq α]

/-- Visit the first place, until one stops the loop. -/
def go (visit : σ → σ) (stop : σ → Prop) [DecidablePred stop] :
    ℕ → (α → σ) → List α → Option (α × (α → σ) × List α)
  | 0, _, _ => none
  | _ + 1, _, [] => none
  | fuel + 1, s, a :: ring =>
    if stop (s a) then some (a, s, a :: ring)
    else go visit stop fuel (Function.update s a (visit (s a))) (ring ++ [a])

section go

variable {visit : σ → σ} {stop : σ → Prop} [DecidablePred stop] {s : α → σ} {ring A B : List α}

/-- The places that do not stop the loop are visited once. -/
theorem go_append (hnd : A.Nodup) (hA : ∀ a ∈ A, ¬stop (s a)) (fuel : ℕ) (ring : List α) :
    go visit stop (A.length + fuel) s (A ++ ring) =
      go visit stop fuel (fun a => if a ∈ A then visit (s a) else s a) (ring ++ A) := by
  induction A generalizing s ring with
  | nil =>
    simp only [List.length_nil, Nat.zero_add, List.nil_append, List.not_mem_nil, if_false,
      List.append_nil]
  | cons a A ih =>
    obtain ⟨ha, hnd⟩ := List.nodup_cons.1 hnd
    have hself : ∀ b ∈ A, Function.update s a (visit (s a)) b = s b := fun b hb =>
      Function.update_of_ne (ne_of_mem_of_not_mem hb ha) ..
    have hA' : ∀ b ∈ A, ¬stop (Function.update s a (visit (s a)) b) := fun b hb => by
      rw [hself b hb]
      exact hA b (List.mem_cons_of_mem _ hb)
    rw [List.length_cons, Nat.add_right_comm, List.cons_append, go, if_neg (hA a List.mem_cons_self),
      List.append_assoc, ih hnd hA', List.append_assoc]
    congr 1
    funext b
    by_cases hb : b ∈ A
    · rw [if_pos hb, if_pos (List.mem_cons_of_mem _ hb), hself b hb]
    · rw [if_neg hb]
      by_cases hba : b = a
      · rw [hba, Function.update_self, if_pos List.mem_cons_self]
      · rw [Function.update_of_ne hba, if_neg (by simp [hb, hba])]

/-- The rounds where no place stops the loop. -/
theorem go_rounds (hnd : ring.Nodup) {R : ℕ} (hR : ∀ a ∈ ring, ∀ k < R, ¬stop (visit^[k] (s a)))
    (fuel : ℕ) :
    go visit stop (R * ring.length + fuel) s ring =
      go visit stop fuel (fun a => if a ∈ ring then visit^[R] (s a) else s a) ring := by
  induction R generalizing s with
  | zero => simp
  | succ R ih =>
    have hstop : ∀ a ∈ ring, ¬stop (s a) := fun a ha => hR a ha 0 R.succ_pos
    have hfirst : go visit stop (ring.length + (R * ring.length + fuel)) s (ring ++ []) = _ :=
      go_append hnd hstop _ []
    rw [List.append_nil, List.nil_append] at hfirst
    rw [Nat.succ_mul, Nat.add_comm _ ring.length, Nat.add_assoc, hfirst, ih fun a ha k hk => ?_]
    · congr 1
      funext a
      by_cases ha : a ∈ ring
      · rw [if_pos ha, if_pos ha, if_pos ha, Function.iterate_succ_apply]
      · rw [if_neg ha, if_neg ha, if_neg ha]
    · rw [if_pos ha, ← Function.iterate_succ_apply]
      exact hR a ha (k + 1) (Nat.succ_lt_succ hk)

/-- The loop stops in the round `R` at the place `v`, after the places `A`. -/
theorem go_stops {v : α} {R : ℕ} (hnd : (A ++ v :: B).Nodup)
    (hR : ∀ a ∈ A ++ v :: B, ∀ k < R, ¬stop (visit^[k] (s a)))
    (hA : ∀ a ∈ A, ¬stop (visit^[R] (s a))) (hv : stop (visit^[R] (s v))) (fuel : ℕ) :
    ∃ s', go visit stop (R * (A ++ v :: B).length + (A.length + (fuel + 1))) s (A ++ v :: B) =
        some (v, s', v :: B ++ A) ∧
      (∀ a ∈ A, s' a = visit^[R + 1] (s a)) ∧ (∀ a ∈ v :: B, s' a = visit^[R] (s a)) ∧
      ∀ a, a ∉ A ++ v :: B → s' a = s a := by
  have hdisj : ∀ a ∈ v :: B, a ∉ A := fun a ha ha' =>
    (List.nodup_append.1 hnd).2.2 a ha' a ha rfl
  have hmem : ∀ a ∈ A, a ∈ A ++ v :: B := fun a => List.mem_append_left _
  have hmem' : ∀ a ∈ v :: B, a ∈ A ++ v :: B := fun a => List.mem_append_right _
  have hA' : ∀ a ∈ A, ¬stop (if a ∈ A ++ v :: B then visit^[R] (s a) else s a) := fun a ha => by
    rw [if_pos (hmem a ha)]
    exact hA a ha
  have hv' : v ∉ A := hdisj v List.mem_cons_self
  rw [go_rounds hnd hR, go_append hnd.of_append_left hA', List.cons_append, go, if_neg hv',
    if_pos (hmem' v List.mem_cons_self), if_pos hv]
  refine ⟨_, rfl, fun a ha => ?_, fun a ha => ?_, fun a ha => ?_⟩
  · rw [if_pos ha, if_pos (hmem a ha), Function.iterate_succ_apply']
  · rw [if_neg (hdisj a ha), if_pos (hmem' a ha)]
  · rw [if_neg (fun ha' => ha (hmem a ha')), if_neg ha]

end go

/-- The number of visits to a state before the one that stops the loop, if there is one. -/
structure Rank (visit : σ → σ) (stop : σ → Prop) (rank : σ → Option ℕ) : Prop where
  stop_iff : ∀ x, stop x ↔ rank x = some 0
  visit_succ : ∀ x r, rank x = some (r + 1) → rank (visit x) = some r
  visit_none : ∀ x, rank x = none → rank (visit x) = none

namespace Rank

variable {visit : σ → σ} {stop : σ → Prop} {rank : σ → Option ℕ} {s : α → σ} {ring : List α} {v : α}
  {R d : ℕ}

theorem iterate_none (h : Rank visit stop rank) {x : σ} (hx : rank x = none) (k : ℕ) :
    rank (visit^[k] x) = none := by
  induction k with
  | zero => exact hx
  | succ k ih => exact Function.iterate_succ_apply' visit k x ▸ h.visit_none _ ih

theorem iterate_some (h : Rank visit stop rank) {x : σ} {r : ℕ} (k : ℕ) (hx : rank x = some (r + k)) :
    rank (visit^[k] x) = some r := by
  induction k generalizing r with
  | zero => exact hx
  | succ k ih =>
    rw [Function.iterate_succ_apply']
    exact h.visit_succ _ _ (ih (r := r + 1) (by rw [hx, Nat.add_right_comm, Nat.add_assoc]))

/-- A state does not stop the loop before as many visits as its rank. -/
theorem not_stop (h : Rank visit stop rank) {x : σ} {k : ℕ} (hk : ∀ r, rank x = some r → k < r) :
    ¬stop (visit^[k] x) := by
  rw [h.stop_iff]
  cases hx : rank x with
  | none =>
    rw [h.iterate_none hx]
    exact Option.some_ne_none 0 ∘ Eq.symm
  | some r =>
    obtain ⟨j, rfl⟩ := Nat.exists_eq_add_of_lt (hk r hx)
    rw [h.iterate_some k (r := j + 1) (by rw [hx]; congr 1; omega)]
    simp

/-- The place at `d` has the least rank `R`, and is the first that has. -/
def Least (rank : σ → Option ℕ) (s : α → σ) (ring : List α) (v : α) (R d : ℕ) : Prop :=
  ring[d]? = some v ∧ rank (s v) = some R ∧
    ∀ e a r, ring[e]? = some a → rank (s a) = some r → toLex (R, d) ≤ toLex (r, e)

omit [DecidableEq α] in
/-- There is a place of least rank. -/
theorem exists_least (hex : ∃ a ∈ ring, (rank (s a)).isSome = true) :
    ∃ v R d, Least rank s ring v R d := by
  have hne : {x : ℕ ×ₗ ℕ | ∃ e a r, ring[e]? = some a ∧ rank (s a) = some r ∧
      x = toLex (r, e)}.Nonempty := by
    obtain ⟨a, ha, hrank⟩ := hex
    obtain ⟨e, hlt, rfl⟩ := List.getElem_of_mem ha
    obtain ⟨r, hr⟩ := Option.isSome_iff_exists.1 hrank
    exact ⟨_, e, _, r, List.getElem?_eq_getElem hlt, hr, rfl⟩
  obtain ⟨x, ⟨d, v, R, hd, hR, rfl⟩, hmin⟩ := wellFounded_lt.has_min _ hne
  exact ⟨v, R, d, hd, hR, fun e a r he hr => not_lt.1 (hmin _ ⟨e, a, r, he, hr, rfl⟩)⟩

omit [DecidableEq α] in
theorem Least.lt (hl : Least rank s ring v R d) {e r : ℕ} {a : α} (he : ring[e]? = some a)
    (hr : rank (s a) = some r) : R ≤ r ∧ (e < d → R < r) := by
  have hle := hl.2.2 e a r he hr
  rw [Prod.Lex.le_iff] at hle
  dsimp only [ofLex_toLex] at hle
  omega

/-- The loop ends at the place of least rank. -/
theorem go_eq_some [DecidablePred stop] (h : Rank visit stop rank) (hnd : ring.Nodup)
    (hl : Least rank s ring v R d) {fuel : ℕ} (hfuel : R * ring.length + d < fuel) :
    ∃ s', go visit stop fuel s ring = some (v, s', ring.rotate d) ∧
      (∀ e a, ring[e]? = some a → s' a = visit^[if e < d then R + 1 else R] (s a)) ∧
      ∀ a, a ∉ ring → s' a = s a := by
  obtain ⟨hd, hv, -⟩ := id hl
  obtain ⟨hlt, rfl⟩ := List.getElem?_eq_some_iff.1 hd
  have hsplit : ring = ring.take d ++ ring[d] :: ring.drop (d + 1) := by
    rw [List.getElem_cons_drop, List.take_append_drop]
  have hlen : (ring.take d).length = d := List.length_take_of_le hlt.le
  obtain ⟨k, rfl⟩ : ∃ k, fuel = R * ring.length + ((ring.take d).length + (k + 1)) :=
    ⟨fuel - (R * ring.length + d) - 1, by omega⟩
  have hidx : ∀ a ∈ ring, ∃ e, ring[e]? = some a := fun a ha =>
    List.mem_iff_getElem?.1 ha
  have hR : ∀ a ∈ ring, ∀ k < R, ¬stop (visit^[k] (s a)) := fun a ha k hk => by
    obtain ⟨e, he⟩ := hidx a ha
    exact h.not_stop fun r hr => hk.trans_le (hl.lt he hr).1
  -- The places before the one of least rank have a greater rank.
  have htake : ∀ a ∈ ring.take d, ∃ e < d, ring[e]? = some a := fun a ha => by
    obtain ⟨e, he⟩ := List.mem_iff_getElem?.1 ha
    rw [List.getElem?_take] at he
    split_ifs at he with hed
    exact ⟨e, hed, he⟩
  have hA : ∀ a ∈ ring.take d, ¬stop (visit^[R] (s a)) := fun a ha => by
    obtain ⟨e, hed, he⟩ := htake a ha
    exact h.not_stop fun r hr => (hl.lt he hr).2 hed
  have hstop : stop (visit^[R] (s ring[d])) :=
    (h.stop_iff _).2 (h.iterate_some R (by rw [hv, Nat.zero_add]))
  have hrotate : ring[d] :: ring.drop (d + 1) ++ ring.take d = ring.rotate d := by
    rw [List.rotate_eq_drop_append_take hlt.le, List.getElem_cons_drop]
  obtain ⟨s', hgo, h₁, h₂, h₃⟩ := go_stops (hsplit ▸ hnd) (hsplit ▸ hR) hA hstop k
  rw [← hsplit, hrotate] at hgo
  refine ⟨s', hgo, fun e a he => ?_, fun a ha => h₃ a (hsplit ▸ ha)⟩
  by_cases hed : e < d
  · rw [if_pos hed]
    refine h₁ a (List.mem_iff_getElem?.2 ⟨e, ?_⟩)
    rw [List.getElem?_take_of_lt hed, he]
  · rw [if_neg hed]
    refine h₂ a (List.mem_iff_getElem?.2 ⟨e - d, ?_⟩)
    rw [List.getElem_cons_drop, List.getElem?_drop, Nat.add_sub_cancel' (not_lt.1 hed), he]

end Rank

end Mcpq.RoundRobin
