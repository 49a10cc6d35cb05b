/-!
# Roles

A role is a place in a program that certain kinds of syntax may take: where an
expression is wanted, where a statement is, and so on.  Roles are independent of
each other, and one kind may play several of them, so what a kind may play is a
`RoleSet`.
-/

namespace EcmaTree

/-- What a piece of syntax may be used as. -/
inductive Role where
  | expression
  | statement
  | patternElement
  | functionParameter
  | propertyValue
  | argumentListElement
  | moduleItem
  | declaration
  | importDeclarationSpecifier
  deriving DecidableEq, Repr

namespace Role

/-- All roles, in their fixed order. -/
def all : List Role :=
  [.expression, .statement, .patternElement, .functionParameter, .propertyValue,
    .argumentListElement, .moduleItem, .declaration, .importDeclarationSpecifier]

def index : Role → Fin 9
  | .expression => 0
  | .statement => 1
  | .patternElement => 2
  | .functionParameter => 3
  | .propertyValue => 4
  | .argumentListElement => 5
  | .moduleItem => 6
  | .declaration => 7
  | .importDeclarationSpecifier => 8

/-- The full name of a role. -/
def name : Role → String
  | .expression => "Expression"
  | .statement => "Statement"
  | .patternElement => "PatternElement"
  | .functionParameter => "FunctionParameter"
  | .propertyValue => "PropertyValue"
  | .argumentListElement => "ArgumentListElement"
  | .moduleItem => "ModuleItem"
  | .declaration => "Declaration"
  | .importDeclarationSpecifier => "ImportDeclarationSpecifier"

/-- The short name of a role, by which a slot that wants it is called. -/
def slotName : Role → String
  | .expression => "Expr"
  | .statement => "Stmt"
  | .patternElement => "PatternElem"
  | .functionParameter => "Param"
  | .propertyValue => "PropValue"
  | .argumentListElement => "Arg"
  | .moduleItem => "Item"
  | .declaration => "Decl"
  | .importDeclarationSpecifier => "ImportSpec"

def ofName? (s : String) : Option Role :=
  all.find? (·.name == s)

end Role

/-- A set of roles, one bit for each. -/
structure RoleSet where
  bits : BitVec 9
  deriving DecidableEq, Repr

namespace RoleSet

def empty : RoleSet :=
  ⟨0⟩

def insert (s : RoleSet) (r : Role) : RoleSet :=
  ⟨s.bits ||| BitVec.twoPow 9 r.index⟩

def contains (s : RoleSet) (r : Role) : Bool :=
  s.bits.getLsbD r.index

def ofList (rs : List Role) : RoleSet :=
  rs.foldl insert empty

/-- The roles in the set, in their fixed order. -/
def toList (s : RoleSet) : List Role :=
  Role.all.filter s.contains

def isEmpty (s : RoleSet) : Bool :=
  s == empty

/-- The full names of the roles in the set between braces. -/
def display (s : RoleSet) : String :=
  "\x7b" ++ ", ".intercalate (s.toList.map Role.name) ++ "\x7d"

end RoleSet

end EcmaTree
