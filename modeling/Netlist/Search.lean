/-!
# Breadth-first search

`explore next remaining pending` lists what is reachable from `pending` inside `remaining`, in the
order in which a breadth-first search first meets it. Each step either takes an element out of
`remaining` or drops one that is no longer there, so the search ends whatever `next` is.
-/

namespace Netlist

variable {α : Type} [DecidableEq α]

def explore (next : α → List α) (remaining pending : List α) : List α :=
  match pending with
  | [] => []
  | v :: queue =>
    if v ∈ remaining then v :: explore next (remaining.erase v) (queue ++ next v)
    else explore next remaining queue
termination_by (remaining.length, pending.length)
decreasing_by
  · rename_i h
    exact Prod.Lex.left _ _ (by
      rw [List.length_erase_of_mem h]
      have := List.length_pos_of_mem h
      omega)
  · exact Prod.Lex.right _ (by simp)

/-- What is reachable from several starts, each of them searched after those before it and without
what they have reached. -/
def exploreAll (next : α → List α) (remaining : List α) : (starts : List (List α)) → List α
  | [] => []
  | start :: starts =>
    let found := explore next remaining start
    found ++ exploreAll next (remaining.filter (· ∉ found)) starts

theorem mem_of_mem_explore {next : α → List α} {remaining pending : List α} {v : α}
    (h : v ∈ explore next remaining pending) : v ∈ remaining := by
  fun_induction explore next remaining pending with
  | case1 => simp at h
  | case2 remaining u queue hu ih =>
    rcases List.mem_cons.1 h with rfl | h
    · exact hu
    · exact List.mem_of_mem_erase (ih h)
  | case3 remaining u queue hu ih => exact ih h

end Netlist
