/-!
# Vocabularies

Some fields hold one word out of a closed list, such as the operators.  Each
list is an inductive type, and `Word` gives its words with their spelling in
program text and their descriptive names. `Vocabulary` names the lists, so that
a schema can refer to them.
-/

namespace EcmaTree

/-- A closed list of words. -/
class Word (α : Type) where
  /-- The words, in order. -/
  all : List α
  /-- The spelling of a word in program text. -/
  text : α → String
  /-- The descriptive name of a word. -/
  label : α → String

def Word.ofText? (α : Type) [Word α] (s : String) : Option α :=
  (Word.all : List α).find? (Word.text · == s)

/-- How the text of a program is to be read. -/
inductive SourceType where
  | script
  | esModule
  deriving DecidableEq, Repr

instance : Word SourceType where
  all := [.script, .esModule]
  text
    | .script => "script"
    | .esModule => "module"
  label
    | .script => "Script"
    | .esModule => "Module"

/-- The word that begins a declaration of variables. -/
inductive VariableKind where
  | var
  | letBinding
  | constBinding
  deriving DecidableEq, Repr

instance : Word VariableKind where
  all := [.var, .letBinding, .constBinding]
  text
    | .var => "var"
    | .letBinding => "let"
    | .constBinding => "const"
  label
    | .var => "Var"
    | .letBinding => "Let"
    | .constBinding => "Const"

/-- What a property of an object literal defines. -/
inductive PropertyKind where
  | init
  | get
  | set
  deriving DecidableEq, Repr

instance : Word PropertyKind where
  all := [.init, .get, .set]
  text
    | .init => "init"
    | .get => "get"
    | .set => "set"
  label
    | .init => "Init"
    | .get => "Get"
    | .set => "Set"

/-- What a member of a class body defines. -/
inductive MethodKind where
  | constructor
  | method
  | get
  | set
  deriving DecidableEq, Repr

instance : Word MethodKind where
  all := [.constructor, .method, .get, .set]
  text
    | .constructor => "constructor"
    | .method => "method"
    | .get => "get"
    | .set => "set"
  label
    | .constructor => "Constructor"
    | .method => "Method"
    | .get => "Get"
    | .set => "Set"

/-- An operator before a single operand. -/
inductive UnaryOperator where
  | minus
  | plus
  | logicalNot
  | bitwiseNot
  | typeof
  | void
  | delete
  deriving DecidableEq, Repr

instance : Word UnaryOperator where
  all := [.minus, .plus, .logicalNot, .bitwiseNot, .typeof, .void, .delete]
  text
    | .minus => "-"
    | .plus => "+"
    | .logicalNot => "!"
    | .bitwiseNot => "~"
    | .typeof => "typeof"
    | .void => "void"
    | .delete => "delete"
  label
    | .minus => "Minus"
    | .plus => "Plus"
    | .logicalNot => "LogicalNot"
    | .bitwiseNot => "BitwiseNot"
    | .typeof => "Typeof"
    | .void => "Void"
    | .delete => "Delete"

/-- An operator that changes its operand by one. -/
inductive UpdateOperator where
  | increment
  | decrement
  deriving DecidableEq, Repr

instance : Word UpdateOperator where
  all := [.increment, .decrement]
  text
    | .increment => "++"
    | .decrement => "--"
  label
    | .increment => "Increment"
    | .decrement => "Decrement"

/-- An operator between two operands that are both evaluated. -/
inductive BinaryOperator where
  | equal
  | notEqual
  | strictEqual
  | strictNotEqual
  | less
  | lessOrEqual
  | greater
  | greaterOrEqual
  | leftShift
  | rightShift
  | unsignedRightShift
  | plus
  | minus
  | times
  | divide
  | modulo
  | exponent
  | bitwiseOr
  | bitwiseXor
  | bitwiseAnd
  | inOperator
  | instanceOf
  deriving DecidableEq, Repr

instance : Word BinaryOperator where
  all :=
    [.equal, .notEqual, .strictEqual, .strictNotEqual, .less, .lessOrEqual, .greater,
     .greaterOrEqual, .leftShift, .rightShift, .unsignedRightShift, .plus, .minus, .times, .divide,
     .modulo, .exponent, .bitwiseOr, .bitwiseXor, .bitwiseAnd, .inOperator, .instanceOf]
  text
    | .equal => "=="
    | .notEqual => "!="
    | .strictEqual => "==="
    | .strictNotEqual => "!=="
    | .less => "<"
    | .lessOrEqual => "<="
    | .greater => ">"
    | .greaterOrEqual => ">="
    | .leftShift => "<<"
    | .rightShift => ">>"
    | .unsignedRightShift => ">>>"
    | .plus => "+"
    | .minus => "-"
    | .times => "*"
    | .divide => "/"
    | .modulo => "%"
    | .exponent => "**"
    | .bitwiseOr => "|"
    | .bitwiseXor => "^"
    | .bitwiseAnd => "&"
    | .inOperator => "in"
    | .instanceOf => "instanceof"
  label
    | .equal => "Equal"
    | .notEqual => "NotEqual"
    | .strictEqual => "StrictEqual"
    | .strictNotEqual => "StrictNotEqual"
    | .less => "Less"
    | .lessOrEqual => "LessOrEqual"
    | .greater => "Greater"
    | .greaterOrEqual => "GreaterOrEqual"
    | .leftShift => "LeftShift"
    | .rightShift => "RightShift"
    | .unsignedRightShift => "UnsignedRightShift"
    | .plus => "Plus"
    | .minus => "Minus"
    | .times => "Times"
    | .divide => "Divide"
    | .modulo => "Modulo"
    | .exponent => "Exponent"
    | .bitwiseOr => "BitwiseOr"
    | .bitwiseXor => "BitwiseXor"
    | .bitwiseAnd => "BitwiseAnd"
    | .inOperator => "In"
    | .instanceOf => "InstanceOf"

/-- An operator whose second operand may not be evaluated. -/
inductive LogicalOperator where
  | or
  | and
  deriving DecidableEq, Repr

instance : Word LogicalOperator where
  all := [.or, .and]
  text
    | .or => "||"
    | .and => "&&"
  label
    | .or => "Or"
    | .and => "And"

/-- An operator that assigns to its first operand. -/
inductive AssignmentOperator where
  | assign
  | plusAssign
  | minusAssign
  | timesAssign
  | divideAssign
  | moduloAssign
  | exponentAssign
  | leftShiftAssign
  | rightShiftAssign
  | unsignedRightShiftAssign
  | bitwiseOrAssign
  | bitwiseXorAssign
  | bitwiseAndAssign
  deriving DecidableEq, Repr

instance : Word AssignmentOperator where
  all :=
    [.assign, .plusAssign, .minusAssign, .timesAssign, .divideAssign, .moduloAssign,
     .exponentAssign, .leftShiftAssign, .rightShiftAssign, .unsignedRightShiftAssign,
     .bitwiseOrAssign, .bitwiseXorAssign, .bitwiseAndAssign]
  text
    | .assign => "="
    | .plusAssign => "+="
    | .minusAssign => "-="
    | .timesAssign => "*="
    | .divideAssign => "/="
    | .moduloAssign => "%="
    | .exponentAssign => "**="
    | .leftShiftAssign => "<<="
    | .rightShiftAssign => ">>="
    | .unsignedRightShiftAssign => ">>>="
    | .bitwiseOrAssign => "|="
    | .bitwiseXorAssign => "^="
    | .bitwiseAndAssign => "&="
  label
    | .assign => "Assign"
    | .plusAssign => "PlusAssign"
    | .minusAssign => "MinusAssign"
    | .timesAssign => "TimesAssign"
    | .divideAssign => "DivideAssign"
    | .moduloAssign => "ModuloAssign"
    | .exponentAssign => "ExponentAssign"
    | .leftShiftAssign => "LeftShiftAssign"
    | .rightShiftAssign => "RightShiftAssign"
    | .unsignedRightShiftAssign => "UnsignedRightShiftAssign"
    | .bitwiseOrAssign => "BitwiseOrAssign"
    | .bitwiseXorAssign => "BitwiseXorAssign"
    | .bitwiseAndAssign => "BitwiseAndAssign"

/-- The closed lists of words. -/
inductive Vocabulary where
  | sourceType
  | variableKind
  | propertyKind
  | methodKind
  | unaryOperator
  | updateOperator
  | binaryOperator
  | logicalOperator
  | assignmentOperator
  deriving DecidableEq, Repr

namespace Vocabulary

def all : List Vocabulary :=
  [.sourceType, .variableKind, .propertyKind, .methodKind, .unaryOperator, .updateOperator,
   .binaryOperator, .logicalOperator, .assignmentOperator]

/-- The words of a list. -/
@[reducible]
def Entry : Vocabulary → Type
  | .sourceType => SourceType
  | .variableKind => VariableKind
  | .propertyKind => PropertyKind
  | .methodKind => MethodKind
  | .unaryOperator => UnaryOperator
  | .updateOperator => UpdateOperator
  | .binaryOperator => BinaryOperator
  | .logicalOperator => LogicalOperator
  | .assignmentOperator => AssignmentOperator

instance : (v : Vocabulary) → Word v.Entry
  | .sourceType => (inferInstance : Word SourceType)
  | .variableKind => (inferInstance : Word VariableKind)
  | .propertyKind => (inferInstance : Word PropertyKind)
  | .methodKind => (inferInstance : Word MethodKind)
  | .unaryOperator => (inferInstance : Word UnaryOperator)
  | .updateOperator => (inferInstance : Word UpdateOperator)
  | .binaryOperator => (inferInstance : Word BinaryOperator)
  | .logicalOperator => (inferInstance : Word LogicalOperator)
  | .assignmentOperator => (inferInstance : Word AssignmentOperator)

def name : Vocabulary → String
  | .sourceType => "SourceType"
  | .variableKind => "VariableDeclarationKind"
  | .propertyKind => "PropertyKind"
  | .methodKind => "MethodKind"
  | .unaryOperator => "UnaryOperator"
  | .updateOperator => "UpdateOperator"
  | .binaryOperator => "BinaryOperator"
  | .logicalOperator => "LogicalOperator"
  | .assignmentOperator => "AssignmentOperator"

def ofName? (s : String) : Option Vocabulary :=
  all.find? (·.name == s)

end Vocabulary

end EcmaTree
