import EcmaTree.Proofs.Scopes
import Mathlib.Data.List.Perm.Basic
import Mathlib.Data.List.Nodup
import Mathlib.Data.Prod.Basic

/-!
# Every declaration belongs to one scope

Below a root there is one scope for the root and one for each function.  Equal
declarations may stand at several places, so a declaration is told by the path
to it.  Every place below the root is in exactly one of these scopes: that of
the innermost function around it, or that of the root if there is none.  Hence
the declarations collected scope by scope are all of those below the root, and
no place is counted twice.
-/

namespace EcmaTree

namespace AnyNode

/-! ## Places -/

/-- Places below a node, as seen from further out: the path to the node comes first. -/
def under (path : List Nat) (entries : List (List Nat × AnyNode)) : List (List Nat × AnyNode) :=
  entries.map (Prod.map (path ++ ·) id)

/-- The nodes of a tree with the paths to them, outer nodes before inner ones. -/
def places (n : AnyNode) : List (List Nat × AnyNode) :=
  ([], n) :: n.children.attach.zipIdx.flatMap fun m => under [m.2] m.1.val.places
termination_by sizeOf n.node
decreasing_by exact sizeOf_lt_of_mem_children m.1.property

/-- The nodes properly below a node with the paths to them. -/
def innerPlaces (n : AnyNode) : List (List Nat × AnyNode) :=
  n.children.zipIdx.flatMap fun m => under [m.2] m.1.places

theorem places_eq (n : AnyNode) : n.places = ([], n) :: n.innerPlaces := by
  rw [places, innerPlaces, zipIdx_children, List.flatMap_map]
  rfl

theorem under_nil (entries : List (List Nat × AnyNode)) : under [] entries = entries :=
  List.map_id entries

theorem under_under (p q : List Nat) (entries : List (List Nat × AnyNode)) :
    under p (under q entries) = under (p ++ q) entries := by
  simp [under, Function.comp_def]

theorem mem_under_iff
    {outer path : List Nat} {n : AnyNode} {entries : List (List Nat × AnyNode)} :
    (path, n) ∈ under outer entries ↔ ∃ inner, path = outer ++ inner ∧ (inner, n) ∈ entries := by
  simp [under, eq_comm, and_comm]

theorem mem_innerPlaces_iff
    {root n : AnyNode} {path : List Nat} :
    (path, n) ∈ root.innerPlaces ↔
      ∃ i inner child, path = i :: inner ∧ root.children[i]? = some child ∧
        (inner, n) ∈ child.places := by
  simp only [innerPlaces, List.mem_flatMap, mem_under_iff]
  constructor
  · rintro ⟨⟨child, i⟩, hchild, inner, hpath, hinner⟩
    exact ⟨i, inner, child, hpath, List.mem_zipIdx_iff_getElem?.mp hchild, hinner⟩
  · rintro ⟨i, inner, child, hpath, hchild, hinner⟩
    exact ⟨(child, i), List.mem_zipIdx_iff_getElem?.mpr hchild, inner, hpath, hinner⟩

theorem nil_notMem_innerPlaces (root n : AnyNode) : ([], n) ∉ root.innerPlaces := by
  intro h
  obtain ⟨i, inner, child, hpath, -⟩ := mem_innerPlaces_iff.mp h
  exact List.cons_ne_nil i inner hpath.symm

/-- The places in a tree are the paths that lead to a node. -/
theorem mem_places_iff
    {root n : AnyNode} {path : List Nat} :
    (path, n) ∈ root.places ↔ root.descendant? path = some n := by
  induction path generalizing root with
  | nil => simp [places_eq root, nil_notMem_innerPlaces, descendant?, eq_comm]
  | cons i path ih =>
      rw [places_eq, List.mem_cons, mem_innerPlaces_iff, descendant?, Option.bind_eq_some_iff]
      simp [ih]

theorem mem_innerPlaces_iff_descendant?
    {root n : AnyNode} {path : List Nat} :
    (path, n) ∈ root.innerPlaces ↔ path ≠ [] ∧ root.descendant? path = some n := by
  rw [← mem_places_iff, places_eq, List.mem_cons]
  constructor
  · intro h
    refine ⟨?_, .inr h⟩
    rintro rfl
    exact nil_notMem_innerPlaces root n h
  · rintro ⟨hpath, hself | hinner⟩
    · exact absurd (congrArg Prod.fst hself) hpath
    · exact hinner

theorem nodup_under
    {entries : List (List Nat × AnyNode)} (h : entries.Nodup) (path : List Nat) :
    (under path entries).Nodup := by
  apply h.map
  exact (List.append_right_injective path).prodMap Function.injective_id

/-- No place is listed twice. -/
theorem nodup_places (n : AnyNode) : n.places.Nodup := by
  induction n using induction_on_children with
  | node n ih =>
      rw [places_eq, List.nodup_cons]
      refine ⟨nil_notMem_innerPlaces n n, List.nodup_flatMap.mpr ⟨?_, ?_⟩⟩
      · rintro ⟨child, i⟩ hchild
        have hmem := List.mem_of_getElem? (List.mem_zipIdx_iff_getElem?.mp hchild)
        exact nodup_under (ih child hmem) [i]
      · -- Places below different children differ in the first step.
        refine n.pairwise_zipIdx_children.imp ?_
        rintro ⟨child, i⟩ ⟨child', j⟩ hlt ⟨path, m⟩ hm hm'
        obtain ⟨inner, rfl, -⟩ := mem_under_iff.mp hm
        obtain ⟨inner', hpath, -⟩ := mem_under_iff.mp hm'
        exact absurd (List.cons.inj hpath).1 (Nat.ne_of_lt hlt)

/-! ## Owners -/

/-- The functions properly below a node with the paths to them. -/
def innerFunctions (n : AnyNode) : List (List Nat × AnyNode) :=
  n.innerPlaces.filter fun entry => !entry.2.kind.isTransparent

/-- The places in the scope of a node at a place, seen from further out. -/
def scopeAt (scope : List Nat × AnyNode) : List (List Nat × AnyNode) :=
  under scope.1 scope.2.scopeEntries

/-- The places in the scope of a node and in those of the functions below it. -/
def ownedPlaces (n : AnyNode) : List (List Nat × AnyNode) :=
  (([], n) :: n.innerFunctions).flatMap scopeAt

theorem ownedPlaces_eq (n : AnyNode) :
    n.ownedPlaces = n.scopeEntries ++ n.innerFunctions.flatMap scopeAt := by
  rw [ownedPlaces, List.flatMap_cons, scopeAt, under_nil]

theorem flatMap_scopeAt_under (path : List Nat) (scopes : List (List Nat × AnyNode)) :
    (under path scopes).flatMap scopeAt = under path (scopes.flatMap scopeAt) := by
  rw [under, List.flatMap_map, under, List.map_flatMap]
  apply List.flatMap_congr
  intro scope _
  exact (under_under path scope.1 scope.2.scopeEntries).symm

def branchFunctions (m : AnyNode × Nat) : List (List Nat × AnyNode) :=
  under [m.2] (m.1.places.filter fun entry => !entry.2.kind.isTransparent)

theorem innerFunctions_eq (n : AnyNode) :
    n.innerFunctions = n.children.zipIdx.flatMap branchFunctions := by
  rw [innerFunctions, innerPlaces, List.filter_flatMap]
  apply List.flatMap_congr
  intro m _
  rw [branchFunctions, under, List.filter_map]
  rfl

/-- A branch adds its child to the scope around it, and what is below the child
is owned there, or in the scope around if the child is no function. -/
theorem branchEntries_append_scopes (child : AnyNode) (i : Nat) :
    branchEntries (child, i) ++ (branchFunctions (child, i)).flatMap scopeAt =
      ([i], child) :: under [i] child.ownedPlaces := by
  rw [branchFunctions, flatMap_scopeAt_under, places_eq, branchEntries, List.cons_append]
  congr 1
  by_cases htransparent : child.kind.isTransparent = true
  · rw [if_pos htransparent, List.filter_cons_of_neg (by simp [htransparent]), ownedPlaces_eq]
    exact List.map_append.symm
  · rw [if_neg htransparent, List.filter_cons_of_pos (by simp [htransparent]), List.nil_append]
    rfl

/-- Every place below a node is owned by exactly one scope. -/
theorem ownedPlaces_perm (n : AnyNode) : n.ownedPlaces.Perm n.innerPlaces := by
  induction n using induction_on_children with
  | node n ih =>
      -- The scope of the node runs through all branches before the scopes inside of
      -- them do, so it is only up to order that the branches come one by one.
      have hbranch : ∀ m ∈ n.children.zipIdx,
          (branchEntries m ++ (branchFunctions m).flatMap scopeAt).Perm
            (under [m.2] m.1.places) := by
        rintro ⟨child, i⟩ hchild
        have hmem := List.mem_of_getElem? (List.mem_zipIdx_iff_getElem?.mp hchild)
        rw [branchEntries_append_scopes, places_eq]
        exact ((ih child hmem).map _).cons _
      calc
        n.ownedPlaces =
            n.children.zipIdx.flatMap branchEntries ++
              n.children.zipIdx.flatMap fun m => (branchFunctions m).flatMap scopeAt := by
          rw [ownedPlaces_eq, scopeEntries_eq, innerFunctions_eq, List.flatMap_assoc]
        List.Perm _ (n.children.zipIdx.flatMap fun m =>
            branchEntries m ++ (branchFunctions m).flatMap scopeAt) :=
          List.flatMap_append_perm _ _ _
        List.Perm _ n.innerPlaces := List.Perm.flatMap_left _ hbranch

/-! ## Listing places -/

/-- A list has the wanted nodes properly below a root with the paths to them,
each place once. -/
def ListsPlaces
    (root : AnyNode) (wanted : AnyNode → Prop) (entries : List (List Nat × AnyNode)) : Prop :=
  entries.Nodup ∧
    ∀ path n, (path, n) ∈ entries ↔ path ≠ [] ∧ root.descendant? path = some n ∧ wanted n

theorem nodup_innerPlaces (root : AnyNode) : root.innerPlaces.Nodup := by
  have h := root.nodup_places
  rw [places_eq] at h
  exact h.of_cons

theorem listsPlaces_filter
    (root : AnyNode) {wanted : AnyNode → Prop} {test : AnyNode → Bool}
    (htest : ∀ n, test n = true ↔ wanted n) :
    root.ListsPlaces wanted (root.innerPlaces.filter fun entry => test entry.2) := by
  refine ⟨root.nodup_innerPlaces.filter _, ?_⟩
  intro path n
  rw [List.mem_filter, mem_innerPlaces_iff_descendant?, htest, and_assoc]

theorem listsPlaces_innerFunctions (root : AnyNode) :
    root.ListsPlaces (fun n => n.kind.IsFunction) root.innerFunctions := by
  have htest : ∀ n : AnyNode, (!n.kind.isTransparent) = true ↔ n.kind.IsFunction := by
    intro n
    rw [Bool.not_eq_true', Bool.eq_false_iff, Ne, Kind.isTransparent_iff, not_not]
  exact root.listsPlaces_filter htest

/-- What is found in the scopes at given places makes up the wanted nodes below a
root: the places where it is found, seen from the root, are all the places of
wanted nodes, each of them once, and so the nodes are the same but for the order. -/
def SharedOut
    (root : AnyNode) (wanted : AnyNode → Prop) (scopes : List (List Nat × AnyNode))
    (found : AnyNode → List AnyNode) : Prop :=
  ∃ (all : List (List Nat × AnyNode)) (located : AnyNode → List (List Nat × AnyNode)),
    root.ListsPlaces wanted all ∧
    (∀ scope, (located scope).map Prod.snd = found scope ∧
      ∀ entry ∈ located scope, scope.descendant? entry.1 = some entry.2) ∧
    (scopes.flatMap fun scope => under scope.1 (located scope.2)).Perm all ∧
    (scopes.flatMap fun scope => found scope.2).Perm (all.map Prod.snd)

theorem map_snd_under (path : List Nat) (entries : List (List Nat × AnyNode)) :
    (under path entries).map Prod.snd = entries.map Prod.snd := by
  simp [under, Function.comp_def]

theorem filter_ownedPlaces (root : AnyNode) (test : AnyNode → Bool) :
    root.ownedPlaces.filter (fun entry => test entry.2) =
      (([], root) :: root.innerFunctions).flatMap fun scope =>
        under scope.1 (scope.2.scopeEntries.filter fun entry => test entry.2) := by
  rw [ownedPlaces, List.filter_flatMap]
  apply List.flatMap_congr
  intro scope _
  rw [scopeAt, under, List.filter_map]
  rfl

/-- The nodes that pass a test are shared out among the scopes of a root and of
the functions below it. -/
theorem sharedOut_filter
    (root : AnyNode) {wanted : AnyNode → Prop} {test : AnyNode → Bool}
    (htest : ∀ n, test n = true ↔ wanted n) {found : AnyNode → List AnyNode}
    (hfound : ∀ n, found n = (n.scopeEntries.map Prod.snd).filter test) :
    root.SharedOut wanted (([], root) :: root.innerFunctions) found := by
  have hlocated : ∀ n : AnyNode,
      (n.scopeEntries.filter fun entry => test entry.2).map Prod.snd = found n := by
    intro n
    rw [hfound, List.filter_map]
    rfl
  have hplaces : ((([], root) :: root.innerFunctions).flatMap fun scope =>
      under scope.1 (scope.2.scopeEntries.filter fun entry => test entry.2)).Perm
      (root.innerPlaces.filter fun entry => test entry.2) := by
    rw [← filter_ownedPlaces]
    exact root.ownedPlaces_perm.filter _
  refine ⟨_, fun n => n.scopeEntries.filter fun entry => test entry.2,
    root.listsPlaces_filter htest, ?_, hplaces, ?_⟩
  · intro n
    refine ⟨hlocated n, ?_⟩
    rintro ⟨path, m⟩ hentry
    have hscope : (path, m) ∈ n.scopeEntries := (List.mem_filter.mp hentry).1
    exact (mem_scopeEntries_iff.mp hscope).2
  · have hnodes := hplaces.map Prod.snd
    rw [List.map_flatMap] at hnodes
    simpa only [map_snd_under, hlocated] using hnodes

end AnyNode

/-! ## Declarations -/

namespace Scope

/-- Picking nodes of one kind is a test on nodes. -/
theorem map_filterMap_pick
    {k : Kind} {pick : AnyNode → Option (Node k)} (hpick : ∀ m n, pick m = some n → m = ⟨n⟩)
    (nodes : List AnyNode) :
    (nodes.filterMap pick).map AnyNode.mk = nodes.filter fun m => (pick m).isSome := by
  rw [List.map_filterMap, ← List.filterMap_eq_filter]
  apply List.filterMap_congr
  intro m _
  rw [Option.guard]
  cases h : pick m with
  | none => rfl
  | some n => exact congrArg some (hpick m n h).symm

/-- The nodes of one kind that are picked out of each scope are shared out. -/
theorem sharedOut_pick
    (root : AnyNode) {k : Kind} {pick : AnyNode → Option (Node k)} {wanted : AnyNode → Prop}
    (hpick : ∀ m n, pick m = some n → m = ⟨n⟩) (hwanted : ∀ m, (pick m).isSome = true ↔ wanted m) :
    root.SharedOut wanted (([], root) :: root.innerFunctions)
      fun n => ((visit [n.cursor]).filterMap pick).map AnyNode.mk := by
  apply root.sharedOut_filter hwanted
  intro n
  rw [map_filterMap_pick hpick, visit_cursor]

theorem isSome_asFunction?_iff (m : AnyNode) :
    (asFunction? m).isSome = true ↔ m.kind = .functionDeclaration := by
  constructor
  · intro h
    obtain ⟨d, hd⟩ := Option.isSome_iff_exists.mp h
    rw [asFunction?_eq_some_iff.mp hd]
  · intro h
    obtain ⟨node⟩ := m
    subst h
    rfl

theorem isSome_asVariables?_iff (m : AnyNode) :
    (asVariables? m).isSome = true ↔
      ∃ d : Node .variableDeclaration, m = ⟨d⟩ ∧ d.variableKind = .var := by
  simp only [Option.isSome_iff_exists, asVariables?_eq_some_iff]

/-- Every declaration belongs to exactly one of the scopes of a root and of the
functions below it: what is collected from these scopes is, place by place and
so up to order, what is declared anywhere below the root. -/
theorem collect_shares_out_declarations (root : AnyNode) :
    ∃ functions : List (List Nat × AnyNode),
      root.ListsPlaces (fun n => n.kind.IsFunction) functions ∧
      root.SharedOut (fun n => n.kind = .functionDeclaration) (([], root) :: functions)
        (fun n => (collect n).functions.map AnyNode.mk) ∧
      root.SharedOut
        (fun n => ∃ d : Node .variableDeclaration, n = ⟨d⟩ ∧ d.variableKind = .var)
        (([], root) :: functions) (fun n => (collect n).vars.map AnyNode.mk) := by
  refine ⟨root.innerFunctions, root.listsPlaces_innerFunctions, ?_, ?_⟩
  · apply sharedOut_pick root
    · intro m n
      exact asFunction?_eq_some_iff.mp
    · exact isSome_asFunction?_iff
  · apply sharedOut_pick root
    · intro m n h
      exact (asVariables?_eq_some_iff.mp h).1
    · exact isSome_asVariables?_iff

end Scope

end EcmaTree
