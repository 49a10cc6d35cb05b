import EcmaTree.Tree.Kind
import EcmaTree.Tree.Vocabulary

/-!
# The schema of syntax trees

For each kind, `Kind.fields` lists the fields of its nodes in the order in which
they are written, and `Kind.childFields` names those that are walked through
when the children of a node are enumerated.

A field that holds nodes has a slot, which says what nodes it takes: those that
play a role, those of one kind, or all.
-/

namespace EcmaTree

/-- What nodes a field takes. -/
inductive Slot where
  | role (r : Role)
  | kind (k : Kind)
  | any
  deriving DecidableEq, Repr

def Slot.admits : Slot → Kind → Bool
  | .role r, k => k.roles.contains r
  | .kind wanted, k => wanted == k
  | .any, _ => true

inductive FieldType where
  | flag
  | text
  /-- A text that is left out when there is none. -/
  | optionalText
  /-- The value of a literal. -/
  | literal
  /-- The text of a piece of a template. -/
  | template
  | word (v : Vocabulary)
  /-- One node. -/
  | one (s : Slot)
  /-- One node or none. -/
  | maybe (s : Slot)
  /-- A list of nodes. -/
  | many (s : Slot)
  /-- A list of nodes with gaps. -/
  | holes (s : Slot)
  deriving DecidableEq, Repr

/-- A field: its name in the written form, and its type. -/
structure FieldSpec where
  name : String
  type : FieldType
  deriving DecidableEq, Repr

namespace Kind

/-- The fields of the nodes of a kind, in order. -/
def fields : Kind → List FieldSpec
  | .arrayExpression => [⟨"elements", .holes (.role .argumentListElement)⟩]
  | .arrayPattern => [⟨"elements", .holes (.role .patternElement)⟩]
  | .arrowFunctionExpression =>
    [⟨"id", .maybe (.kind .identifier)⟩, ⟨"params", .many (.role .functionParameter)⟩,
     ⟨"body", .one .any⟩, ⟨"generator", .flag⟩, ⟨"expression", .flag⟩, ⟨"async", .flag⟩]
  | .assignmentExpression =>
    [⟨"operator", .word .assignmentOperator⟩, ⟨"left", .one (.role .patternElement)⟩,
     ⟨"right", .one (.role .expression)⟩]
  | .assignmentPattern =>
    [⟨"left", .one (.role .patternElement)⟩, ⟨"right", .one (.role .expression)⟩]
  | .awaitExpression => [⟨"argument", .one (.role .expression)⟩]
  | .binaryExpression =>
    [⟨"operator", .word .binaryOperator⟩, ⟨"left", .one (.role .expression)⟩,
     ⟨"right", .one (.role .expression)⟩]
  | .blockStatement => [⟨"body", .many (.role .statement)⟩]
  | .breakStatement => [⟨"label", .maybe (.kind .identifier)⟩]
  | .callExpression =>
    [⟨"callee", .one (.role .expression)⟩, ⟨"arguments", .many (.role .argumentListElement)⟩]
  | .catchClause =>
    [⟨"param", .maybe (.role .patternElement)⟩, ⟨"body", .one (.kind .blockStatement)⟩]
  | .classBody => [⟨"body", .many (.kind .methodDefinition)⟩]
  | .classDeclaration =>
    [⟨"id", .maybe (.kind .identifier)⟩, ⟨"superClass", .maybe (.role .expression)⟩,
     ⟨"body", .one (.kind .classBody)⟩]
  | .classExpression =>
    [⟨"id", .maybe (.kind .identifier)⟩, ⟨"superClass", .maybe (.role .expression)⟩,
     ⟨"body", .one (.kind .classBody)⟩]
  | .conditionalExpression =>
    [⟨"test", .one (.role .expression)⟩, ⟨"consequent", .one (.role .expression)⟩,
     ⟨"alternate", .one (.role .expression)⟩]
  | .continueStatement => [⟨"label", .maybe (.kind .identifier)⟩]
  | .debuggerStatement => []
  | .doWhileStatement => [⟨"body", .one (.role .statement)⟩, ⟨"test", .one (.role .expression)⟩]
  | .emptyStatement => []
  | .exportAllDeclaration => [⟨"source", .one (.kind .literal)⟩]
  | .exportDefaultDeclaration => [⟨"declaration", .one .any⟩]
  | .exportNamedDeclaration =>
    [⟨"declaration", .maybe (.role .declaration)⟩, ⟨"specifiers", .many (.kind .exportSpecifier)⟩,
     ⟨"source", .maybe (.kind .literal)⟩]
  | .exportSpecifier =>
    [⟨"local", .one (.kind .identifier)⟩, ⟨"exported", .one (.kind .identifier)⟩]
  | .expressionStatement => [⟨"expression", .one (.role .expression)⟩, ⟨"directive", .optionalText⟩]
  | .forInStatement =>
    [⟨"left", .one .any⟩, ⟨"right", .one (.role .expression)⟩, ⟨"body", .one (.role .statement)⟩]
  | .forOfStatement =>
    [⟨"left", .one .any⟩, ⟨"right", .one (.role .expression)⟩, ⟨"body", .one (.role .statement)⟩]
  | .forStatement =>
    [⟨"init", .maybe .any⟩, ⟨"test", .maybe (.role .expression)⟩,
     ⟨"update", .maybe (.role .expression)⟩, ⟨"body", .one (.role .statement)⟩]
  | .functionDeclaration =>
    [⟨"id", .maybe (.kind .identifier)⟩, ⟨"params", .many (.role .functionParameter)⟩,
     ⟨"body", .one (.kind .blockStatement)⟩, ⟨"generator", .flag⟩, ⟨"async", .flag⟩]
  | .functionExpression =>
    [⟨"id", .maybe (.kind .identifier)⟩, ⟨"params", .many (.role .functionParameter)⟩,
     ⟨"body", .one (.kind .blockStatement)⟩, ⟨"generator", .flag⟩, ⟨"async", .flag⟩]
  | .identifier => [⟨"name", .text⟩]
  | .ifStatement =>
    [⟨"test", .one (.role .expression)⟩, ⟨"consequent", .one (.role .statement)⟩,
     ⟨"alternate", .maybe (.role .statement)⟩]
  | .importCallee => []
  | .importDeclaration =>
    [⟨"specifiers", .many (.role .importDeclarationSpecifier)⟩, ⟨"source", .one (.kind .literal)⟩]
  | .importDefaultSpecifier => [⟨"local", .one (.kind .identifier)⟩]
  | .importNamespaceSpecifier => [⟨"local", .one (.kind .identifier)⟩]
  | .importSpecifier =>
    [⟨"local", .one (.kind .identifier)⟩, ⟨"imported", .one (.kind .identifier)⟩]
  | .labeledStatement => [⟨"label", .one (.kind .identifier)⟩, ⟨"body", .one (.role .statement)⟩]
  | .literal => [⟨"value", .literal⟩, ⟨"raw", .text⟩]
  | .logicalExpression =>
    [⟨"operator", .word .logicalOperator⟩, ⟨"left", .one (.role .expression)⟩,
     ⟨"right", .one (.role .expression)⟩]
  | .memberExpression =>
    [⟨"object", .one (.role .expression)⟩, ⟨"property", .one (.role .expression)⟩,
     ⟨"computed", .flag⟩]
  | .metaProperty => [⟨"meta", .one (.kind .identifier)⟩, ⟨"property", .one (.kind .identifier)⟩]
  | .methodDefinition =>
    [⟨"key", .one (.role .expression)⟩, ⟨"computed", .flag⟩,
     ⟨"value", .one (.kind .functionExpression)⟩, ⟨"kind", .word .methodKind⟩, ⟨"static", .flag⟩]
  | .newExpression =>
    [⟨"callee", .one (.role .expression)⟩, ⟨"arguments", .many (.role .argumentListElement)⟩]
  | .objectExpression => [⟨"properties", .many (.kind .property)⟩]
  | .objectPattern => [⟨"properties", .many (.kind .property)⟩]
  | .program => [⟨"body", .many (.role .moduleItem)⟩, ⟨"sourceType", .word .sourceType⟩]
  | .property =>
    [⟨"key", .one (.role .expression)⟩, ⟨"computed", .flag⟩, ⟨"value", .one (.role .propertyValue)⟩,
     ⟨"kind", .word .propertyKind⟩, ⟨"method", .flag⟩, ⟨"shorthand", .flag⟩]
  | .restElement => [⟨"argument", .one (.role .patternElement)⟩]
  | .returnStatement => [⟨"argument", .maybe (.role .expression)⟩]
  | .sequenceExpression => [⟨"expressions", .many (.role .expression)⟩]
  | .spreadElement => [⟨"argument", .one (.role .expression)⟩]
  | .super => []
  | .switchCase => [⟨"test", .maybe (.role .expression)⟩, ⟨"consequent", .many (.role .statement)⟩]
  | .switchStatement =>
    [⟨"discriminant", .one (.role .expression)⟩, ⟨"cases", .many (.kind .switchCase)⟩]
  | .taggedTemplateExpression =>
    [⟨"tag", .one (.role .expression)⟩, ⟨"quasi", .one (.kind .templateLiteral)⟩]
  | .templateElement => [⟨"value", .template⟩, ⟨"tail", .flag⟩]
  | .templateLiteral =>
    [⟨"quasis", .many (.kind .templateElement)⟩, ⟨"expressions", .many (.role .expression)⟩]
  | .thisExpression => []
  | .throwStatement => [⟨"argument", .one (.role .expression)⟩]
  | .tryStatement =>
    [⟨"block", .one (.kind .blockStatement)⟩, ⟨"handler", .maybe (.kind .catchClause)⟩,
     ⟨"finalizer", .maybe (.kind .blockStatement)⟩]
  | .unaryExpression => [⟨"operator", .word .unaryOperator⟩, ⟨"argument", .one (.role .expression)⟩]
  | .updateExpression =>
    [⟨"operator", .word .updateOperator⟩, ⟨"argument", .one (.role .expression)⟩, ⟨"prefix", .flag⟩]
  | .variableDeclaration =>
    [⟨"declarations", .many (.kind .variableDeclarator)⟩, ⟨"kind", .word .variableKind⟩]
  | .variableDeclarator =>
    [⟨"id", .one (.role .patternElement)⟩, ⟨"init", .maybe (.role .expression)⟩]
  | .whileStatement => [⟨"test", .one (.role .expression)⟩, ⟨"body", .one (.role .statement)⟩]
  | .withStatement => [⟨"object", .one (.role .expression)⟩, ⟨"body", .one (.role .statement)⟩]
  | .yieldExpression => [⟨"argument", .maybe (.role .expression)⟩, ⟨"delegate", .flag⟩]

/-- The names of the fields that hold the children of a node, in order. -/
def childFields : Kind → List String
  | .arrayExpression => ["elements"]
  | .arrayPattern => ["elements"]
  | .arrowFunctionExpression => ["id", "params", "body"]
  | .assignmentExpression => ["left", "right"]
  | .assignmentPattern => ["left", "right"]
  | .awaitExpression => ["argument"]
  | .binaryExpression => ["left", "right"]
  | .blockStatement => ["body"]
  | .breakStatement => ["label"]
  | .callExpression => ["callee", "arguments"]
  | .catchClause => ["param", "body"]
  | .classBody => ["body"]
  | .classDeclaration => ["id", "superClass", "body"]
  | .classExpression => ["id", "superClass", "body"]
  | .conditionalExpression => ["test", "consequent", "alternate"]
  | .continueStatement => ["label"]
  | .debuggerStatement => []
  | .doWhileStatement => ["body", "test"]
  | .emptyStatement => []
  | .exportAllDeclaration => ["source"]
  | .exportDefaultDeclaration => ["declaration"]
  | .exportNamedDeclaration => ["declaration", "specifiers", "source"]
  | .exportSpecifier => ["local", "exported"]
  | .expressionStatement => ["expression"]
  | .forInStatement => ["left", "right", "body"]
  | .forOfStatement => ["left", "right", "body"]
  | .forStatement => ["init", "test", "update", "body"]
  | .functionDeclaration => ["id", "params", "body"]
  | .functionExpression => ["id", "params", "body"]
  | .identifier => []
  | .ifStatement => ["test", "consequent", "alternate"]
  | .importCallee => []
  | .importDeclaration => ["specifiers", "source"]
  | .importDefaultSpecifier => ["local"]
  | .importNamespaceSpecifier => ["local"]
  | .importSpecifier => ["local", "imported"]
  | .labeledStatement => ["label", "body"]
  | .literal => []
  | .logicalExpression => ["left", "right"]
  | .memberExpression => ["object", "property"]
  | .metaProperty => ["meta", "property"]
  | .methodDefinition => ["key", "value"]
  | .newExpression => ["callee", "arguments"]
  | .objectExpression => ["properties"]
  | .objectPattern => ["properties"]
  | .program => ["body"]
  | .property => ["key", "value"]
  | .restElement => ["argument"]
  | .returnStatement => ["argument"]
  | .sequenceExpression => ["expressions"]
  | .spreadElement => ["argument"]
  | .super => []
  | .switchCase => ["test", "consequent"]
  | .switchStatement => ["discriminant", "cases"]
  | .taggedTemplateExpression => ["tag", "quasi"]
  | .templateElement => []
  | .templateLiteral => ["quasis", "expressions"]
  | .thisExpression => []
  | .throwStatement => ["argument"]
  | .tryStatement => ["block", "handler", "finalizer"]
  | .unaryExpression => ["argument"]
  | .updateExpression => ["argument"]
  | .variableDeclaration => ["declarations"]
  | .variableDeclarator => ["id", "init"]
  | .whileStatement => ["test", "body"]
  | .withStatement => ["object", "body"]
  | .yieldExpression => ["argument"]

end Kind

end EcmaTree
