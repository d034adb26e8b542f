/-!
# The work left in a list

What walks over a tree without recursion keeps what is left to do in a list. It ends because the
`workload` of that list, the sum of what its members still cost, gets smaller with every step.
-/

namespace ScimQuery

/-- The sum of the weights of the members of a list. -/
def workload {α : Type} (weight : α → Nat) : List α → Nat
  | [] => 0
  | a :: rest => weight a + workload weight rest

variable {α β : Type} (weight : α → Nat)

@[simp] theorem workload_nil : workload weight [] = 0 := rfl

@[simp] theorem workload_cons (a : α) (rest : List α) :
    workload weight (a :: rest) = weight a + workload weight rest := rfl

@[simp] theorem workload_append (front rest : List α) :
    workload weight (front ++ rest) = workload weight front + workload weight rest := by
  induction front with
  | nil => simp
  | cons a front ih => simp only [List.cons_append, workload_cons, ih]; omega

/-- No member costs more than the whole list. -/
theorem le_workload_of_mem {a : α} {list : List α} (h : a ∈ list) :
    weight a ≤ workload weight list := by
  induction list with
  | nil => simp at h
  | cons b rest ih =>
    rw [workload_cons]
    rcases List.mem_cons.1 h with rfl | h
    · omega
    · have := ih h
      omega

end ScimQuery
