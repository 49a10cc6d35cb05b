import EcmaTree.Proofs.Enumeration
import EcmaTree.Tree.Hoisting

/-!
# What belongs to a scope

A place below a node is given by a path, the number of a child at each step, and
the lexicographic order of paths is the order of the program, outer nodes before
inner ones.  A place belongs to the scope of the node if no function lies
between the two.

The nodes of a scope are found by a loop over a stack of cursors.  The cursors
stand for the subtrees that are still ahead of them, one after another, so the
loop lists the same nodes as a plain recursion, which can keep the paths.
-/

namespace EcmaTree

/-! ## Places in a scope -/

def Kind.IsFunction (k : Kind) : Prop :=
  k = .functionDeclaration ∨ k = .functionExpression ∨ k = .arrowFunctionExpression

theorem Kind.isTransparent_iff (k : Kind) : k.isTransparent = true ↔ ¬k.IsFunction := by
  cases k <;> simp [isTransparent, IsFunction]

namespace AnyNode

/-- A path leads to a place below a node with no function strictly between the
two; the node itself and what is at the place may be functions. -/
def InScope (root : AnyNode) (path : List Nat) : Prop :=
  path ≠ [] ∧
    ∀ before, before <+: path → before ≠ [] → before ≠ path →
      ∀ n, root.descendant? before = some n → ¬n.kind.IsFunction

theorem descendant?_cons_of_getElem?
    {root child : AnyNode} {i : Nat} (hchild : root.children[i]? = some child) (path : List Nat) :
    root.descendant? (i :: path) = child.descendant? path := by
  rw [descendant?, hchild, Option.bind_some]

/-- A scope goes on in a child unless the child is a function. -/
theorem inScope_cons_iff
    {root child : AnyNode} {i : Nat} (hchild : root.children[i]? = some child) {path : List Nat} :
    root.InScope (i :: path) ↔ path = [] ∨ ¬child.kind.IsFunction ∧ child.InScope path := by
  constructor
  · rintro ⟨-, hbetween⟩
    by_cases hpath : path = []
    · exact .inl hpath
    · refine .inr ⟨?_, hpath, ?_⟩
      · refine hbetween [i] ⟨path, rfl⟩ (List.cons_ne_nil _ _) ?_ child ?_
        · intro h
          exact hpath (List.cons.inj h).2.symm
        · exact descendant?_cons_of_getElem? hchild []
      · intro before hbefore _ hproper n hn
        refine hbetween (i :: before) ?_ (List.cons_ne_nil _ _) ?_ n ?_
        · exact (List.prefix_cons_inj i).mpr hbefore
        · intro h
          exact hproper (List.cons.inj h).2
        · rw [descendant?_cons_of_getElem? hchild]
          exact hn
  · intro h
    refine ⟨List.cons_ne_nil _ _, ?_⟩
    intro before hbefore hne hproper n hn
    cases before with
    | nil => exact absurd rfl hne
    | cons j before =>
        obtain ⟨rfl, hrest⟩ := List.cons_prefix_cons.mp hbefore
        rw [descendant?_cons_of_getElem? hchild] at hn
        have hshorter : before ≠ path := fun heq => hproper (congrArg (j :: ·) heq)
        rcases h with rfl | ⟨hfunction, hpath⟩
        · exact absurd (List.prefix_nil.mp hrest) hshorter
        · by_cases hbegin : before = []
          · subst hbegin
            cases hn
            exact hfunction
          · exact hpath.2 before hrest hbegin hshorter n hn

/-! ## The nodes of a scope -/

/-- The nodes in the scope of a node in order, each with the path to it. -/
def scopeEntries (n : AnyNode) : List (List Nat × AnyNode) :=
  n.children.attach.zipIdx.flatMap fun m =>
    ([m.2], m.1.val) ::
      if m.1.val.kind.isTransparent then m.1.val.scopeEntries.map (Prod.map (m.2 :: ·) id) else []
termination_by sizeOf n.node
decreasing_by exact sizeOf_lt_of_mem_children m.1.property

/-- What the child of a given number adds to a scope. -/
def branchEntries (m : AnyNode × Nat) : List (List Nat × AnyNode) :=
  ([m.2], m.1) ::
    if m.1.kind.isTransparent then m.1.scopeEntries.map (Prod.map (m.2 :: ·) id) else []

theorem zipIdx_children (n : AnyNode) :
    n.children.zipIdx = n.children.attach.zipIdx.map (Prod.map Subtype.val id) := by
  rw [← List.zipIdx_map, List.attach_map_subtype_val]

/-- The children are numbered in order. -/
theorem pairwise_zipIdx_children (n : AnyNode) :
    n.children.zipIdx.Pairwise fun a b => a.2 < b.2 := by
  have hnumbers : (n.children.zipIdx.map Prod.snd).Pairwise (· < ·) := by
    rw [List.zipIdx_map_snd]
    exact List.pairwise_lt_range'
  exact List.pairwise_map.mp hnumbers

theorem scopeEntries_eq (n : AnyNode) :
    n.scopeEntries = n.children.zipIdx.flatMap branchEntries := by
  rw [scopeEntries, zipIdx_children, List.flatMap_map]
  rfl

/-- The paths of a branch begin with its number. -/
theorem exists_path_of_mem_branchEntries
    {child : AnyNode} {i : Nat} {entry : List Nat × AnyNode}
    (h : entry ∈ branchEntries (child, i)) :
    ∃ path, entry.1 = i :: path := by
  rcases List.mem_cons.mp h with rfl | h
  · exact ⟨[], rfl⟩
  · split at h
    · obtain ⟨inner, -, rfl⟩ := List.mem_map.mp h
      exact ⟨inner.1, rfl⟩
    · cases h

theorem mem_branchEntries_iff
    {child n : AnyNode} {i : Nat} {path : List Nat} :
    (i :: path, n) ∈ branchEntries (child, i) ↔
      path = [] ∧ n = child ∨ ¬child.kind.IsFunction ∧ (path, n) ∈ child.scopeEntries := by
  rw [branchEntries, List.mem_cons, ← Kind.isTransparent_iff]
  cases child.kind.isTransparent <;> simp

theorem mem_scopeEntries_cons_iff
    {root n : AnyNode} {i : Nat} {path : List Nat} :
    (i :: path, n) ∈ root.scopeEntries ↔
      ∃ child, root.children[i]? = some child ∧
        (path = [] ∧ n = child ∨ ¬child.kind.IsFunction ∧ (path, n) ∈ child.scopeEntries) := by
  rw [scopeEntries_eq, List.mem_flatMap]
  constructor
  · rintro ⟨⟨child, j⟩, hchild, hentry⟩
    obtain ⟨path', hpath⟩ := exists_path_of_mem_branchEntries hentry
    obtain ⟨rfl, -⟩ := List.cons.inj hpath
    exact ⟨child, List.mem_zipIdx_iff_getElem?.mp hchild, mem_branchEntries_iff.mp hentry⟩
  · rintro ⟨child, hchild, hentry⟩
    exact ⟨(child, i), List.mem_zipIdx_iff_getElem?.mpr hchild, mem_branchEntries_iff.mpr hentry⟩

theorem path_ne_nil_of_mem_scopeEntries
    {root : AnyNode} {entry : List Nat × AnyNode} (h : entry ∈ root.scopeEntries) :
    entry.1 ≠ [] := by
  rw [scopeEntries_eq, List.mem_flatMap] at h
  obtain ⟨⟨child, i⟩, -, hentry⟩ := h
  obtain ⟨path, hpath⟩ := exists_path_of_mem_branchEntries hentry
  rw [hpath]
  exact List.cons_ne_nil _ _

/-- The entries are the places in the scope, with the nodes that are there. -/
theorem mem_scopeEntries_iff
    {root n : AnyNode} {path : List Nat} :
    (path, n) ∈ root.scopeEntries ↔ root.InScope path ∧ root.descendant? path = some n := by
  induction path generalizing root with
  | nil =>
      constructor
      · intro h
        exact absurd rfl (path_ne_nil_of_mem_scopeEntries h)
      · rintro ⟨⟨hne, -⟩, -⟩
        exact absurd rfl hne
  | cons i path ih =>
      rw [mem_scopeEntries_cons_iff]
      constructor
      · rintro ⟨child, hchild, hentry⟩
        rw [inScope_cons_iff hchild, descendant?_cons_of_getElem? hchild]
        rcases hentry with ⟨rfl, rfl⟩ | ⟨hfunction, hentry⟩
        · exact ⟨.inl rfl, rfl⟩
        · obtain ⟨hscope, hn⟩ := ih.mp hentry
          exact ⟨.inr ⟨hfunction, hscope⟩, hn⟩
      · rintro ⟨hscope, hn⟩
        obtain ⟨child, hchild, hn⟩ := Option.bind_eq_some_iff.mp hn
        refine ⟨child, hchild, ?_⟩
        rcases (inScope_cons_iff hchild).mp hscope with rfl | ⟨hfunction, hscope⟩
        · exact .inl ⟨rfl, (Option.some.inj hn).symm⟩
        · exact .inr ⟨hfunction, ih.mpr ⟨hscope, hn⟩⟩

theorem pairwise_branchEntries
    {child : AnyNode} (i : Nat)
    (hchild : child.scopeEntries.Pairwise fun a b => List.Lex (· < ·) a.1 b.1) :
    (branchEntries (child, i)).Pairwise fun a b => List.Lex (· < ·) a.1 b.1 := by
  rw [branchEntries, List.pairwise_cons]
  split
  · constructor
    · intro entry hentry
      obtain ⟨inner, hinner, rfl⟩ := List.mem_map.mp hentry
      obtain ⟨j, path, hpath⟩ :=
        List.exists_cons_of_ne_nil (path_ne_nil_of_mem_scopeEntries hinner)
      rw [Prod.map_fst, hpath]
      exact .cons .nil
    · exact List.pairwise_map.mpr (hchild.imp .cons)
  · exact ⟨List.forall_mem_nil _, .nil⟩

/-- The entries are in the order of the program, and no place occurs twice. -/
theorem pairwise_scopeEntries (n : AnyNode) :
    n.scopeEntries.Pairwise fun a b => List.Lex (· < ·) a.1 b.1 := by
  induction n using induction_on_children with
  | node n ih =>
      rw [scopeEntries_eq, List.pairwise_flatMap]
      constructor
      · rintro ⟨child, i⟩ hchild
        apply pairwise_branchEntries
        exact ih child (List.mem_of_getElem? (List.mem_zipIdx_iff_getElem?.mp hchild))
      · -- Entries of different branches differ in the first step.
        refine n.pairwise_zipIdx_children.imp ?_
        rintro ⟨child, i⟩ ⟨child', j⟩ hlt entry hentry entry' hentry'
        obtain ⟨path, hpath⟩ := exists_path_of_mem_branchEntries hentry
        obtain ⟨path', hpath'⟩ := exists_path_of_mem_branchEntries hentry'
        rw [hpath, hpath']
        exact .rel hlt

/-! ## The loop -/

/-- What a child adds to a scope, without the paths. -/
def branchNodes (child : AnyNode) : List AnyNode :=
  child :: if child.kind.isTransparent then child.scopeEntries.map Prod.snd else []

theorem map_snd_branchEntries (child : AnyNode) (i : Nat) :
    (branchEntries (child, i)).map Prod.snd = branchNodes child := by
  rw [branchEntries, branchNodes, List.map_cons]
  split
  · rw [List.map_map]
    rfl
  · rfl

theorem map_snd_scopeEntries (n : AnyNode) :
    n.scopeEntries.map Prod.snd = n.children.flatMap branchNodes := by
  rw [scopeEntries_eq, List.map_flatMap]
  conv_rhs => rw [← List.zipIdx_map_fst 0 n.children, List.flatMap_map]
  exact List.flatMap_congr fun m _ => map_snd_branchEntries m.1 m.2

end AnyNode

theorem Cursor.toList_of_next?_none {c : Cursor} (h : c.next? = none) : c.toList = [] := by
  rw [toList_eq_ahead, nodes_ahead_eq, h]
  rfl

/-- A stack of cursors stands for the branches ahead of them, innermost first. -/
theorem Scope.visit_eq (stack : List Cursor) :
    visit stack = stack.flatMap fun c => c.toList.flatMap AnyNode.branchNodes := by
  fun_induction visit stack with
  | case1 => rfl
  | case2 c outer hnext ih =>
      rw [ih, List.flatMap_cons, Cursor.toList_of_next?_none hnext]
      rfl
  | case3 c outer n c' hnext htransparent ih =>
      have hbranch : n.branchNodes = n :: n.cursor.toList.flatMap AnyNode.branchNodes := by
        rw [AnyNode.branchNodes, if_pos htransparent, n.map_snd_scopeEntries]
        rfl
      simp only [ih, List.flatMap_cons, Cursor.toList_of_next?_some hnext, hbranch,
        List.cons_append, List.append_assoc]
  | case4 c outer n c' hnext hfunction ih =>
      have hbranch : n.branchNodes = [n] := by
        rw [AnyNode.branchNodes, if_neg hfunction]
      simp only [ih, List.flatMap_cons, Cursor.toList_of_next?_some hnext, hbranch,
        List.cons_append, List.nil_append]

/-- The loop lists the nodes of the scope of its root. -/
theorem Scope.visit_cursor (root : AnyNode) :
    visit [root.cursor] = root.scopeEntries.map Prod.snd := by
  rw [visit_eq, List.flatMap_singleton, root.map_snd_scopeEntries]
  rfl

/-! ## Declarations -/

namespace Scope

theorem asFunction?_eq_some_iff
    {m : AnyNode} {n : Node .functionDeclaration} :
    asFunction? m = some n ↔ m = ⟨n⟩ := by
  unfold asFunction?
  split
  next node => simp
  next hother =>
    constructor
    · intro h
      cases h
    · rintro rfl
      exact absurd rfl (hother n)

theorem asVariables?_eq_some_iff
    {m : AnyNode} {n : Node .variableDeclaration} :
    asVariables? m = some n ↔ m = ⟨n⟩ ∧ n.variableKind = .var := by
  unfold asVariables?
  split
  next node =>
    rw [Option.ite_none_right_eq_some]
    constructor
    · rintro ⟨hvar, h⟩
      cases h
      exact ⟨rfl, hvar⟩
    · rintro ⟨h, hvar⟩
      cases h
      exact ⟨hvar, rfl⟩
  next hother =>
    constructor
    · intro h
      cases h
    · rintro ⟨rfl, -⟩
      exact absurd rfl (hother n)

end Scope

/-- A list holds the wanted nodes of one kind in the scope of a root: one for each
place in the scope where there is such a node, in the order of the program. -/
def AnyNode.ListsScope
    (root : AnyNode) {k : Kind} (wanted : Node k → Prop) (found : List (Node k)) : Prop :=
  ∃ occurrences : List (List Nat × Node k),
    occurrences.map Prod.snd = found ∧
    occurrences.Pairwise (fun a b => List.Lex (· < ·) a.1 b.1) ∧
    ∀ path n, (path, n) ∈ occurrences ↔
      root.InScope path ∧ root.descendant? path = some ⟨n⟩ ∧ wanted n

namespace Scope

/-- Picking the wanted nodes out of those that the loop lists gives each of them
once and in order. -/
theorem listsScope_visit
    (root : AnyNode) {k : Kind} {pick : AnyNode → Option (Node k)} {wanted : Node k → Prop}
    (hpick : ∀ m n, pick m = some n ↔ m = ⟨n⟩ ∧ wanted n) :
    root.ListsScope wanted ((visit [root.cursor]).filterMap pick) := by
  refine ⟨root.scopeEntries.filterMap fun entry => (pick entry.2).map (entry.1, ·), ?_, ?_, ?_⟩
  · rw [visit_cursor, List.map_filterMap, List.filterMap_map]
    simp [Function.comp_def]
  · refine List.pairwise_filterMap.mpr (root.pairwise_scopeEntries.imp ?_)
    intro entry entry' hlt occurrence hoccurrence occurrence' hoccurrence'
    obtain ⟨n, -, rfl⟩ := Option.map_eq_some_iff.mp hoccurrence
    obtain ⟨n', -, rfl⟩ := Option.map_eq_some_iff.mp hoccurrence'
    exact hlt
  · intro path n
    rw [List.mem_filterMap, ← and_assoc]
    constructor
    · rintro ⟨entry, hentry, hmap⟩
      obtain ⟨n', hn', hsame⟩ := Option.map_eq_some_iff.mp hmap
      cases hsame
      obtain ⟨hnode, hwanted⟩ := (hpick _ _).mp hn'
      rw [← hnode, ← AnyNode.mem_scopeEntries_iff]
      exact ⟨hentry, hwanted⟩
    · rintro ⟨hplace, hwanted⟩
      refine ⟨(path, ⟨n⟩), AnyNode.mem_scopeEntries_iff.mpr hplace, ?_⟩
      exact Option.map_eq_some_iff.mpr ⟨n, (hpick _ _).mpr ⟨rfl, hwanted⟩, rfl⟩

/-- The functions of a scope are the declared functions that are properly below
its root with no function in between, each place once and in the order of the
program, and the variables are the declarations by `var` among the same places.
The root is not one of them, and is entered also if it is a function. -/
theorem collect_listsScope (root : AnyNode) :
    root.ListsScope (fun _ => True) (collect root).functions ∧
      root.ListsScope (fun n => n.variableKind = .var) (collect root).vars := by
  constructor
  · apply listsScope_visit
    intro m n
    rw [asFunction?_eq_some_iff, and_true]
  · apply listsScope_visit
    intro m n
    exact asVariables?_eq_some_iff

end Scope

end EcmaTree
