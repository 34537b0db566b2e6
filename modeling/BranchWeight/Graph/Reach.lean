import BranchWeight.Fault

/-!
What can be reached from a vertex along successors. Ids are marked when they are met and wait in a queue, from which
they are taken in the order in which they were met; each marks its successors in turn. The successors of the vertex
itself are met first, all of them and as often as they are listed. Meeting an id that no vertex has is a fault.
-/

namespace BranchWeight

/-- Marks the ids that are not marked yet and returns them in their order. -/
def markNew (marked : Array Bool) : List Nat → Except Fault (Array Bool × List Nat)
  | [] => .ok (marked, [])
  | id :: rest =>
    if h : id < marked.size then
      if marked[id] then markNew marked rest
      else do
        let (marked, fresh) ← markNew (marked.set id true) rest
        return (marked, id :: fresh)
    else .error (.successorOutOfRange id)

/-- Each fresh id takes one mark, so the queue does not grow for ever. -/
theorem count_markNew {marked marked' : Array Bool} {ids fresh : List Nat}
    (h : markNew marked ids = .ok (marked', fresh)) :
    marked'.count false + fresh.length = marked.count false := by
  induction ids generalizing marked marked' fresh with
  | nil =>
    simp only [markNew, Except.ok.injEq, Prod.mk.injEq] at h
    simp [← h.1, ← h.2]
  | cons id rest ih =>
    rw [markNew] at h
    split at h
    · rename_i hid
      split at h
      · exact ih h
      · rename_i hm
        cases hr : markNew (marked.set id true) rest with
        | error e => simp [hr, bind, Except.bind] at h
        | ok r =>
          simp only [hr, bind, Except.bind, pure, Except.pure, Except.ok.injEq, Prod.mk.injEq] at h
          have hc := ih (show markNew (marked.set id true) rest = .ok (r.1, r.2) from hr)
          have hpos : 0 < marked.count false :=
            Array.count_pos_iff.mpr (Array.mem_iff_getElem.mpr ⟨id, hid, by simpa using hm⟩)
          rw [Array.count_set] at hc
          simp only [Bool.not_eq_true] at hm
          simp [hm] at hc
          rw [← h.1, ← h.2, List.length_cons]
          omega
    · simp at h

/-- Takes ids from the queue until it is empty and tells which they were. Its own id is passed over, since the
successors of the vertex have all been met; any other id marks its successors, and the fresh ones join the queue. -/
def drain (edges : Array (List Nat)) (own : Nat) (marked reached : Array Bool) (queue : List Nat) :
    Except Fault (Array Bool) :=
  match queue with
  | [] => .ok reached
  | id :: rest =>
    if id = own then drain edges own marked reached rest
    else
      match _h : markNew marked (edges.getD id []) with
      | .error fault => .error fault
      | .ok (marked', fresh) => drain edges own marked' (reached.setIfInBounds id true) (rest ++ fresh)
termination_by marked.count false + queue.length
decreasing_by
  · simp only [List.length_cons]
    omega
  · have := count_markNew _h
    simp only [List.length_cons, List.length_append]
    omega

/-- The ids other than its own that can be reached from a vertex in one or more steps, in ascending order. -/
def reach (edges : Array (List Nat)) (id : Nat) : Except Fault (List Nat) := do
  let unmarked := Array.replicate edges.size false
  let (marked, _) ← markNew unmarked (edges.getD id [])
  let reached ← drain edges id marked unmarked (edges.getD id [])
  return (List.range edges.size).filter fun u => reached.getD u false

end BranchWeight
