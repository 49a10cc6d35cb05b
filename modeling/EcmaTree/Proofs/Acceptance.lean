import EcmaTree.Event.Nesting

/-!
# What an accepted event does

An event is accepted in certain states only, and each of the four outlines has
one effect on such a state; where it is refused, the state stays as it is.  It
follows that an event changes nothing but the innermost context and what lies
inside of it.  A checkpoint keeps that context, so the state before the event
can be put together again from the checkpoint and the state after it.
-/

namespace EcmaTree.Nesting

/-! ## One event -/

theorem enterValueThen_eq_ok_iff {n m : Nesting} {next : Nesting → Nesting} :
    n.enterValueThen next = (.ok (), m) ↔ ∃ k, n.enterValue = (.ok (), k) ∧ next k = m := by
  rw [enterValueThen]
  obtain ⟨_ | _, k⟩ := n.enterValue
  · simp
  · simp

/-- A scalar and the start of a container are refused alike. -/
theorem enterValueThen_eq_error_iff
    {n m : Nesting} {next : Nesting → Nesting} {error : NestingError} :
    n.enterValueThen next = (.error error, m) ↔ n.enterValue = (.error error, m) := by
  rw [enterValueThen]
  obtain ⟨_ | _, k⟩ := n.enterValue
  · simp
  · simp

theorem finishContainer_eq_ok_iff {n m : Nesting} {c : Container} :
    n.finishContainer c = (.ok (), m) ↔
      ∃ context outer, n.contexts = context :: outer ∧ context.container = c ∧
        context ≠ .object true ∧ exitValue { n with contexts := outer } = m := by
  constructor
  · intro h
    unfold finishContainer at h
    split at h
    · cases h
    next context outer hn =>
      split at h
      · cases h
      next hc =>
        split at h
        · cases h
        next hmark =>
          cases h
          exact ⟨context, outer, hn, Classical.not_not.mp hc, hmark, rfl⟩
  · rintro ⟨context, outer, hn, rfl, hmark, rfl⟩
    simp [finishContainer, hn, hmark]

theorem member_eq_ok_iff {n m : Nesting} :
    n.member = (.ok (), m) ↔
      ∃ outer, n.contexts = .object false :: outer ∧
        { n with contexts := .object true :: outer } = m := by
  constructor
  · intro h
    unfold member at h
    split at h
    · cases h
    next outer hn =>
      cases h
      exact ⟨outer, hn, rfl⟩
    · cases h
  · rintro ⟨outer, hn, rfl⟩
    simp [member, hn]

theorem enterValue_tail
    {n m : Nesting} (h : n.enterValue = (.ok (), m)) :
    m.contexts.tail = n.contexts.tail := by
  rw [enterValue] at h
  split at h
  · split at h <;> cases h
    rfl
  · cases h
    rfl
  next hn =>
    cases h
    rw [hn]
    rfl
  · cases h

@[simp] theorem contexts_exitValue (n : Nesting) :
    n.exitValue.contexts = n.contexts := by
  rw [exitValue]
  split <;> rfl

/-! ## Events that are refused -/

theorem enterValue_of_error
    {n m : Nesting} {error : NestingError} (h : n.enterValue = (.error error, m)) :
    m = n := by
  rw [enterValue] at h
  split at h
  · split at h <;> cases h
    rfl
  · cases h
  · cases h
  · cases h
    rfl

theorem finishContainer_of_error
    {n m : Nesting} {c : Container} {error : NestingError}
    (h : n.finishContainer c = (.error error, m)) :
    m = n := by
  rw [finishContainer] at h
  split at h
  · cases h
    rfl
  · split at h
    · cases h
      rfl
    · split at h <;> cases h
      rfl

theorem member_of_error
    {n m : Nesting} {error : NestingError} (h : n.member = (.error error, m)) :
    m = n := by
  rw [member] at h
  split at h <;> cases h
  · rfl
  · rfl

theorem accept_of_error
    {n m : Nesting} {o : Outline} {error : NestingError} (h : n.accept o = (.error error, m)) :
    m = n := by
  cases o with
  | scalar => exact enterValue_of_error (enterValueThen_eq_error_iff.mp h)
  | start c => exact enterValue_of_error (enterValueThen_eq_error_iff.mp h)
  | finish c => exact finishContainer_of_error h
  | member => exact member_of_error h

/-- An event is accepted, or refused without a change of the state. -/
theorem accept_eq_ok_or_error (n : Nesting) (o : Outline) :
    (∃ m, n.accept o = (.ok (), m)) ∨ ∃ error, n.accept o = (.error error, n) := by
  obtain ⟨answer, m, haccept⟩ : ∃ answer m, n.accept o = (answer, m) := ⟨_, _, rfl⟩
  cases answer with
  | ok => exact .inl ⟨m, haccept⟩
  | error error =>
      obtain rfl := accept_of_error haccept
      exact .inr ⟨error, haccept⟩

/-- The reason alone tells that the state is left as it is. -/
theorem accept_of_fst_eq_error
    {n : Nesting} {o : Outline} {error : NestingError} (h : (n.accept o).1 = .error error) :
    n.accept o = (.error error, n) :=
  Prod.ext h (accept_of_error (Prod.ext h rfl))

/-! ## Taking back an event -/

/-- The contexts around the innermost one are out of reach of an event. -/
theorem tail_suffix_of_accept
    {n m : Nesting} {o : Outline} (h : n.accept o = (.ok (), m)) :
    n.contexts.tail <:+ m.contexts := by
  cases o with
  | scalar =>
      obtain ⟨k, henter, rfl⟩ := enterValueThen_eq_ok_iff.mp h
      rw [contexts_exitValue, ← enterValue_tail henter]
      exact List.tail_suffix _
  | start c =>
      obtain ⟨k, henter, rfl⟩ := enterValueThen_eq_ok_iff.mp h
      rw [← enterValue_tail henter]
      exact (List.tail_suffix _).trans (List.suffix_cons _ _)
  | finish c =>
      obtain ⟨context, outer, hn, -, -, rfl⟩ := finishContainer_eq_ok_iff.mp h
      rw [contexts_exitValue, hn]
      exact List.suffix_refl _
  | member =>
      obtain ⟨outer, hn, rfl⟩ := member_eq_ok_iff.mp h
      rw [hn]
      exact List.suffix_cons _ _

/-- A state can be restored as long as the contexts around its innermost one are
still there. -/
theorem rollback_checkpoint
    {n m : Nesting} (h : n.contexts.tail <:+ m.contexts) :
    m.rollback n.checkpoint = n := by
  obtain ⟨contexts, root⟩ := n
  -- The innermost context is in the checkpoint, and the others are still in `m`.
  have htail : m.contexts.drop (m.depth - (contexts.length - 1)) = contexts.tail := by
    rw [depth, ← List.length_tail]
    exact (List.suffix_iff_eq_drop.mp h).symm
  have hcontexts : contexts.head?.toList ++ contexts.tail = contexts := by
    cases contexts <;> rfl
  simp only [rollback, checkpoint, depth] at htail ⊢
  rw [htail, hcontexts]

/-- A single event that was accepted can be taken back. -/
theorem rollback_accept
    {n m : Nesting} {o : Outline} (h : n.accept o = (.ok (), m)) :
    m.rollback n.checkpoint = n :=
  rollback_checkpoint (tail_suffix_of_accept h)

end EcmaTree.Nesting
