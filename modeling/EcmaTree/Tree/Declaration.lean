import EcmaTree.Tree.Node

/-!
# Reading declarations

The parts of function and variable declarations, read off their fields.
-/

namespace EcmaTree

def Node.identifierName : Node .identifier → String
  | .mk (.cons (.text name) .nil) => name

def AnyNode.identifierName? : AnyNode → Option String
  | @AnyNode.mk .identifier node => some node.identifierName
  | _ => none

/-- The identifier in a slot that takes nothing else. -/
def Occupant.identifier : Occupant (.kind .identifier) → Node .identifier
  | @Occupant.mk _ .identifier _ node => node

/-- The name of a declared function, which a default export may lack. -/
def Node.functionName? : Node .functionDeclaration → Option String
  | .mk (.cons .absent _) => none
  | .mk (.cons (.present child) _) => some child.identifier.identifierName

def Node.parameters : Node .functionDeclaration → List AnyNode
  | .mk (.cons _ (.cons (.many items) _)) => items.toList.filterMap id

/-- The word that begins a declaration of variables. -/
def Node.variableKind : Node .variableDeclaration → VariableKind
  | .mk (.cons _ (.cons (.word w) .nil)) => w

/-- The declarator in a slot that takes nothing else. -/
def Occupant.declarator : Occupant (.kind .variableDeclarator) → Node .variableDeclarator
  | @Occupant.mk _ .variableDeclarator _ node => node

def Items.declarators : Items false (.kind .variableDeclarator) → List (Node .variableDeclarator)
  | .nil => []
  | .cons child rest => child.declarator :: rest.declarators

def Node.declarators : Node .variableDeclaration → List (Node .variableDeclarator)
  | .mk (.cons (.many items) _) => items.declarators

/-- What a declarator binds, an identifier or a pattern. -/
def Node.target : Node .variableDeclarator → AnyNode
  | .mk (.cons (.one child) _) => child.toAnyNode

end EcmaTree
