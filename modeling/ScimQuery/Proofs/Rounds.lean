import Mathlib.Logic.Relation
import ScimQuery.Workload

/-!
# Loops round by round

A loop that works off a list is a relation between what it holds before a round and after it. What
every round keeps, a run keeps (`holds_of_reaches`). If the work gets less with every round, and the
loop stops at its end only, then it comes to that end (`reaches_of_progress`).
-/

namespace ScimQuery

open Relation (ReflTransGen)

variable {α : Type} {round : α → α → Prop} {P : α → Prop}

theorem holds_of_reaches (hround : ∀ a b, round a b → P a → P b) {a b : α}
    (hrun : ReflTransGen round a b) (h : P a) : P b := by
  induction hrun with
  | refl => exact h
  | tail _ hlast ih => exact hround _ _ hlast ih

/-- A loop ends if the work that is left gets less with every round. -/
theorem wellFounded_of_workload_lt {σ : Type} {weight : σ → Nat} {steps : α → List σ}
    (h : ∀ a b, round a b → workload weight (steps b) < workload weight (steps a)) :
    WellFounded fun b a => round a b :=
  Subrelation.wf (fun {b a} hround => h a b hround) (measure fun a => workload weight (steps a)).wf

/-- A loop that ends, and does not stop before its last state as long as it keeps `P`, comes to that
state. -/
theorem reaches_of_progress (hwf : WellFounded fun b a => round a b)
    (hround : ∀ a b, round a b → P a → P b) {last : α}
    (hprogress : ∀ a, P a → a = last ∨ ∃ b, round a b) {a : α} (h : P a) :
    ReflTransGen round a last := by
  induction a using hwf.induction with
  | _ a ih =>
    rcases hprogress a h with rfl | ⟨b, hab⟩
    · exact .refl
    · exact .head hab (ih b hab (hround a b hab h))

end ScimQuery
