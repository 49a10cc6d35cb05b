import EcmaTree.Tree.Role

/-!
# Kinds of syntax

The kinds of node in a syntax tree, in alphabetical order of their names, and
the roles that each of them may play.
-/

namespace EcmaTree

/-- The kind of a syntax tree node. -/
inductive Kind where
  | arrayExpression
  | arrayPattern
  | arrowFunctionExpression
  | assignmentExpression
  | assignmentPattern
  | awaitExpression
  | binaryExpression
  | blockStatement
  | breakStatement
  | callExpression
  | catchClause
  | classBody
  | classDeclaration
  | classExpression
  | conditionalExpression
  | continueStatement
  | debuggerStatement
  | doWhileStatement
  | emptyStatement
  | exportAllDeclaration
  | exportDefaultDeclaration
  | exportNamedDeclaration
  | exportSpecifier
  | expressionStatement
  | forInStatement
  | forOfStatement
  | forStatement
  | functionDeclaration
  | functionExpression
  | identifier
  | ifStatement
  | importCallee
  | importDeclaration
  | importDefaultSpecifier
  | importNamespaceSpecifier
  | importSpecifier
  | labeledStatement
  | literal
  | logicalExpression
  | memberExpression
  | metaProperty
  | methodDefinition
  | newExpression
  | objectExpression
  | objectPattern
  | program
  | property
  | restElement
  | returnStatement
  | sequenceExpression
  | spreadElement
  | super
  | switchCase
  | switchStatement
  | taggedTemplateExpression
  | templateElement
  | templateLiteral
  | thisExpression
  | throwStatement
  | tryStatement
  | unaryExpression
  | updateExpression
  | variableDeclaration
  | variableDeclarator
  | whileStatement
  | withStatement
  | yieldExpression
  deriving DecidableEq, Repr

namespace RoleSet

/-- The roles of what is nothing but an expression. -/
def asExpression : RoleSet :=
  ofList [.expression, .propertyValue, .argumentListElement]

/-- The roles of what is nothing but a statement. -/
def asStatement : RoleSet :=
  ofList [.statement, .moduleItem]

/-- The roles of a statement that declares names. -/
def asDeclaration : RoleSet :=
  ofList [.statement, .moduleItem, .declaration]

end RoleSet

namespace Kind

def all : List Kind :=
  [.arrayExpression, .arrayPattern, .arrowFunctionExpression, .assignmentExpression,
    .assignmentPattern, .awaitExpression, .binaryExpression, .blockStatement, .breakStatement,
    .callExpression, .catchClause, .classBody, .classDeclaration, .classExpression,
    .conditionalExpression, .continueStatement, .debuggerStatement, .doWhileStatement,
    .emptyStatement, .exportAllDeclaration, .exportDefaultDeclaration, .exportNamedDeclaration,
    .exportSpecifier, .expressionStatement, .forInStatement, .forOfStatement, .forStatement,
    .functionDeclaration, .functionExpression, .identifier, .ifStatement, .importCallee,
    .importDeclaration, .importDefaultSpecifier, .importNamespaceSpecifier, .importSpecifier,
    .labeledStatement, .literal, .logicalExpression, .memberExpression, .metaProperty,
    .methodDefinition, .newExpression, .objectExpression, .objectPattern, .program, .property,
    .restElement, .returnStatement, .sequenceExpression, .spreadElement, .super, .switchCase,
    .switchStatement, .taggedTemplateExpression, .templateElement, .templateLiteral,
    .thisExpression, .throwStatement, .tryStatement, .unaryExpression, .updateExpression,
    .variableDeclaration, .variableDeclarator, .whileStatement, .withStatement, .yieldExpression]

def name : Kind → String
  | .arrayExpression => "ArrayExpression"
  | .arrayPattern => "ArrayPattern"
  | .arrowFunctionExpression => "ArrowFunctionExpression"
  | .assignmentExpression => "AssignmentExpression"
  | .assignmentPattern => "AssignmentPattern"
  | .awaitExpression => "AwaitExpression"
  | .binaryExpression => "BinaryExpression"
  | .blockStatement => "BlockStatement"
  | .breakStatement => "BreakStatement"
  | .callExpression => "CallExpression"
  | .catchClause => "CatchClause"
  | .classBody => "ClassBody"
  | .classDeclaration => "ClassDeclaration"
  | .classExpression => "ClassExpression"
  | .conditionalExpression => "ConditionalExpression"
  | .continueStatement => "ContinueStatement"
  | .debuggerStatement => "DebuggerStatement"
  | .doWhileStatement => "DoWhileStatement"
  | .emptyStatement => "EmptyStatement"
  | .exportAllDeclaration => "ExportAllDeclaration"
  | .exportDefaultDeclaration => "ExportDefaultDeclaration"
  | .exportNamedDeclaration => "ExportNamedDeclaration"
  | .exportSpecifier => "ExportSpecifier"
  | .expressionStatement => "ExpressionStatement"
  | .forInStatement => "ForInStatement"
  | .forOfStatement => "ForOfStatement"
  | .forStatement => "ForStatement"
  | .functionDeclaration => "FunctionDeclaration"
  | .functionExpression => "FunctionExpression"
  | .identifier => "Identifier"
  | .ifStatement => "IfStatement"
  | .importCallee => "Import"
  | .importDeclaration => "ImportDeclaration"
  | .importDefaultSpecifier => "ImportDefaultSpecifier"
  | .importNamespaceSpecifier => "ImportNamespaceSpecifier"
  | .importSpecifier => "ImportSpecifier"
  | .labeledStatement => "LabeledStatement"
  | .literal => "Literal"
  | .logicalExpression => "LogicalExpression"
  | .memberExpression => "MemberExpression"
  | .metaProperty => "MetaProperty"
  | .methodDefinition => "MethodDefinition"
  | .newExpression => "NewExpression"
  | .objectExpression => "ObjectExpression"
  | .objectPattern => "ObjectPattern"
  | .program => "Program"
  | .property => "Property"
  | .restElement => "RestElement"
  | .returnStatement => "ReturnStatement"
  | .sequenceExpression => "SequenceExpression"
  | .spreadElement => "SpreadElement"
  | .super => "Super"
  | .switchCase => "SwitchCase"
  | .switchStatement => "SwitchStatement"
  | .taggedTemplateExpression => "TaggedTemplateExpression"
  | .templateElement => "TemplateElement"
  | .templateLiteral => "TemplateLiteral"
  | .thisExpression => "ThisExpression"
  | .throwStatement => "ThrowStatement"
  | .tryStatement => "TryStatement"
  | .unaryExpression => "UnaryExpression"
  | .updateExpression => "UpdateExpression"
  | .variableDeclaration => "VariableDeclaration"
  | .variableDeclarator => "VariableDeclarator"
  | .whileStatement => "WhileStatement"
  | .withStatement => "WithStatement"
  | .yieldExpression => "YieldExpression"

def ofName? (s : String) : Option Kind :=
  all.find? (·.name == s)

def index (k : Kind) : Nat :=
  all.idxOf k

instance : Ord Kind where
  compare a b := compare a.index b.index

open RoleSet in
def roles : Kind → RoleSet
  | .arrayExpression => asExpression
  | .arrayPattern => ofList [.patternElement, .functionParameter, .propertyValue]
  | .arrowFunctionExpression => asExpression
  | .assignmentExpression => asExpression
  | .assignmentPattern =>
    ofList
      [.expression, .statement, .patternElement, .functionParameter, .propertyValue,
       .argumentListElement, .moduleItem]
  | .awaitExpression => asExpression
  | .binaryExpression => asExpression
  | .blockStatement => asStatement
  | .breakStatement => asStatement
  | .callExpression => asExpression
  | .catchClause => asStatement
  | .classBody => empty
  | .classDeclaration => asDeclaration
  | .classExpression => asExpression
  | .conditionalExpression => asExpression
  | .continueStatement => asStatement
  | .debuggerStatement => asStatement
  | .doWhileStatement => asStatement
  | .emptyStatement => asStatement
  | .exportAllDeclaration => ofList [.moduleItem]
  | .exportDefaultDeclaration => ofList [.moduleItem]
  | .exportNamedDeclaration => ofList [.moduleItem]
  | .exportSpecifier => empty
  | .expressionStatement => asStatement
  | .forInStatement => asStatement
  | .forOfStatement => asStatement
  | .forStatement => asStatement
  | .functionDeclaration => asDeclaration
  | .functionExpression => asExpression
  | .identifier =>
    ofList
      [.expression, .patternElement, .functionParameter, .propertyValue, .argumentListElement]
  | .ifStatement => asStatement
  | .importCallee => asExpression
  | .importDeclaration => ofList [.moduleItem]
  | .importDefaultSpecifier => ofList [.importDeclarationSpecifier]
  | .importNamespaceSpecifier => ofList [.importDeclarationSpecifier]
  | .importSpecifier => ofList [.importDeclarationSpecifier]
  | .labeledStatement => asStatement
  | .literal => asExpression
  | .logicalExpression => asExpression
  | .memberExpression => ofList [.expression, .patternElement, .propertyValue, .argumentListElement]
  | .metaProperty => asExpression
  | .methodDefinition => empty
  | .newExpression => asExpression
  | .objectExpression => asExpression
  | .objectPattern => ofList [.patternElement, .functionParameter, .propertyValue]
  | .program => empty
  | .property => empty
  | .restElement => ofList [.patternElement, .functionParameter]
  | .returnStatement => asStatement
  | .sequenceExpression => asExpression
  | .spreadElement => ofList [.argumentListElement]
  | .super => asExpression
  | .switchCase => empty
  | .switchStatement => asStatement
  | .taggedTemplateExpression => asExpression
  | .templateElement => empty
  | .templateLiteral => asExpression
  | .thisExpression => asExpression
  | .throwStatement => asStatement
  | .tryStatement => asStatement
  | .unaryExpression => asExpression
  | .updateExpression => asExpression
  | .variableDeclaration => asDeclaration
  | .variableDeclarator => empty
  | .whileStatement => asStatement
  | .withStatement => asStatement
  | .yieldExpression => asExpression

end Kind

end EcmaTree
