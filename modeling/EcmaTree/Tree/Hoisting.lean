import EcmaTree.Tree.Cursor
import EcmaTree.Tree.Declaration

/-!
# Hoisting

The scope of a node consists of the nodes below it that are not inside a nested
function.  The functions declared in it and the variables declared by `var`
belong to the whole scope.

`Scope.visit` goes through the nodes of a scope in order, with a stack of
cursors, innermost first, one for each node that has been entered and not yet
left.  The number of nodes still ahead of these cursors shows that it ends.
-/

namespace EcmaTree

def AnyNode.count (n : AnyNode) : Nat :=
  1 + n.children.attach.foldr (fun m total => m.val.count + total) 0
termination_by sizeOf n.node
decreasing_by exact AnyNode.sizeOf_lt_of_mem_children m.property

/-- The number of nodes ahead of a cursor, with those below them. -/
def Cursor.nodesAhead (c : Cursor) : Nat :=
  c.toList.foldr (fun n total => n.count + total) 0

theorem Cursor.toList_of_next?_some {c c' : Cursor} {n : AnyNode} (h : c.next? = some (n, c')) :
    c.toList = n :: c'.toList := by
  rw [toList]
  split
  next hnone => cases hnone.symm.trans h
  next m c'' hsome =>
    cases hsome.symm.trans h
    rfl

theorem Cursor.nodesAhead_of_next?_some {c c' : Cursor} {n : AnyNode}
    (h : c.next? = some (n, c')) : c.nodesAhead = n.count + c'.nodesAhead := by
  rw [nodesAhead, toList_of_next?_some h, List.foldr_cons, ← nodesAhead]

theorem AnyNode.count_eq_nodesAhead_cursor (n : AnyNode) : n.count = 1 + n.cursor.nodesAhead := by
  rw [count]
  exact congrArg (1 + ·) (List.foldr_attach (f := fun m total => AnyNode.count m + total))

/-- Whether the contents of a node belong to the scope around it. -/
def Kind.isTransparent : Kind → Bool
  | .functionDeclaration => false
  | .functionExpression => false
  | .arrowFunctionExpression => false
  | _ => true

/-- The declarations of one scope, in the order of the program. -/
structure Scope where
  functions : List (Node .functionDeclaration) := []
  vars : List (Node .variableDeclaration) := []

namespace Scope

/-- What is left to do for a stack of cursors. -/
def work (stack : List Cursor) : Nat :=
  stack.foldr (fun c total => 1 + 2 * c.nodesAhead + total) 0

/-- The nodes ahead of a stack of cursors and below them, except those inside of
functions. -/
def visit : List Cursor → List AnyNode
  | [] => []
  | c :: outer =>
    match _h : c.next? with
    | none => visit outer
    | some (n, c') =>
      if n.kind.isTransparent then n :: visit (n.cursor :: c' :: outer)
      else n :: visit (c' :: outer)
termination_by stack => work stack
decreasing_by
  · simp only [work, List.foldr_cons]
    omega
  · have hahead := Cursor.nodesAhead_of_next?_some _h
    have hcount := n.count_eq_nodesAhead_cursor
    simp only [work, List.foldr_cons]
    omega
  · have hahead := Cursor.nodesAhead_of_next?_some _h
    have hcount := n.count_eq_nodesAhead_cursor
    simp only [work, List.foldr_cons]
    omega

/-- A node as a function that belongs to the scope around it. -/
def asFunction? : AnyNode → Option (Node .functionDeclaration)
  | @AnyNode.mk .functionDeclaration node => some node
  | _ => none

/-- A node as a declaration of variables that belong to the scope around it. -/
def asVariables? : AnyNode → Option (Node .variableDeclaration)
  | @AnyNode.mk .variableDeclaration node => if node.variableKind = .var then some node else none
  | _ => none

/-- The declarations of the scope of a node; the node itself is entered whatever it is. -/
def collect (root : AnyNode) : Scope :=
  let nodes := visit [root.cursor]
  ⟨nodes.filterMap asFunction?, nodes.filterMap asVariables?⟩

def eqNodes {k : Kind} : List (Node k) → List (Node k) → Bool
  | [], [] => true
  | m :: ms, n :: ns => m.eq n && eqNodes ms ns
  | _, _ => false

/-- Equality of scopes in which numbers are compared numerically. -/
def eq (s t : Scope) : Bool :=
  eqNodes s.functions t.functions && eqNodes s.vars t.vars

end Scope

end EcmaTree
