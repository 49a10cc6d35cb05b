import EcmaTree.Proofs.Acceptance

/-!
# Returning to a checkpoint

A checkpoint keeps of a state its depth, its innermost context and the mark of
the top, but none of the contexts around the innermost one.  These are taken
from the state at which the rollback starts, so they must have been left alone.

An event reaches the innermost context and no other.  As long as events come at
no lower depth than that of the checkpoint, the innermost context is the saved
one or lies inside of it, and the contexts around the saved one stay in place,
even if the last event ends the saved container.
-/

namespace EcmaTree.Nesting

/-! ## Events that may be refused -/

/-- The state after an event, accepted or refused. -/
def follow (n : Nesting) (o : Outline) : Nesting :=
  (n.accept o).2

def followAll (n : Nesting) (os : List Outline) : Nesting :=
  os.foldl follow n

/-- The states in which the events of a sequence arrive, one for each event. -/
def statesBefore (n : Nesting) : List Outline → List Nesting
  | [] => []
  | o :: os => n :: (n.follow o).statesBefore os

/-! ## What a run leaves alone -/

/-- An event that arrives at the depth of a state or deeper leaves the contexts
around the innermost one of that state in place. -/
theorem tail_suffix_follow
    {s n : Nesting} (o : Outline) (hdepth : s.depth ≤ n.depth)
    (h : s.contexts.tail <:+ n.contexts) :
    s.contexts.tail <:+ (n.follow o).contexts := by
  -- They lie around the innermost context of `n` too, which is all that `o` can reach.
  have houter : s.contexts.tail <:+ n.contexts.tail := by
    apply List.suffix_of_suffix_length_le h (List.tail_suffix _)
    rw [List.length_tail, List.length_tail]
    exact Nat.sub_le_sub_right hdepth 1
  rw [follow]
  obtain ⟨m, haccept⟩ | ⟨error, haccept⟩ := n.accept_eq_ok_or_error o
  · rw [haccept]
    exact houter.trans (tail_suffix_of_accept haccept)
  · rw [haccept]
    exact h

theorem tail_suffix_followAll
    {s n : Nesting} {os : List Outline}
    (hdepth : ∀ m ∈ n.statesBefore os, s.depth ≤ m.depth)
    (h : s.contexts.tail <:+ n.contexts) :
    s.contexts.tail <:+ (n.followAll os).contexts := by
  induction os generalizing n with
  | nil => exact h
  | cons o os ih =>
      obtain ⟨hfirst, hrest⟩ := List.forall_mem_cons.mp hdepth
      exact ih hrest (tail_suffix_follow o hfirst h)

/-! ## Rollback -/

/-- Any events, accepted or refused, are undone by a rollback, provided that each
of them arrived at the depth of the checkpoint or deeper.  This is so of a
single event in any state. -/
theorem rollback_exact (s : Nesting) :
    (∀ os : List Outline, (∀ n ∈ s.statesBefore os, s.depth ≤ n.depth) →
      (s.followAll os).rollback s.checkpoint = s) ∧
    ∀ o : Outline, (s.follow o).rollback s.checkpoint = s := by
  have hrun : ∀ os : List Outline, (∀ n ∈ s.statesBefore os, s.depth ≤ n.depth) →
      (s.followAll os).rollback s.checkpoint = s := by
    intro os hdepth
    exact rollback_checkpoint (tail_suffix_followAll hdepth (List.tail_suffix _))
  refine ⟨hrun, ?_⟩
  intro o
  apply hrun [o]
  intro n hn
  obtain rfl := List.mem_singleton.mp hn
  exact Nat.le_refl _

/-- In an object inside an array, a member is completed, an end is refused, a
container is opened and closed, and then the object itself is closed. -/
theorem rollback_exact_closed :
    let s : Nesting := { contexts := [.object true, .array] }
    let os : List Outline :=
      [.scalar, .finish .array, .member, .start .array, .finish .array, .finish .object]
    (s.followAll os).contexts = [.array] ∧ (s.followAll os).rollback s.checkpoint = s := by
  intro s os
  have hdepth : ∀ n ∈ s.statesBefore os, s.depth ≤ n.depth := by
    decide
  exact ⟨rfl, (rollback_exact s).1 os hdepth⟩

/-- The depth matters: an array around the saved one is closed and an object takes
its place, which no checkpoint records. -/
example :
    let s : Nesting := { contexts := [.array, .array, .array] }
    let os : List Outline := [.finish .array, .finish .array, .start .object]
    ((s.followAll os).rollback s.checkpoint).contexts = [.array, .object false, .array] := by
  decide

end EcmaTree.Nesting
