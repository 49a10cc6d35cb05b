import EcmaTree.Tree.Node

/-!
# Slots that admit more

Some roles come with others: whatever may be used as an expression may also be
used as the value of a property and as an argument, a statement may stand among
the items of a module, and a declaration is a statement.  So a node in a slot
for one role can be moved to a slot for the other without a check.
-/

namespace EcmaTree

theorem Slot.propertyValue_of_expression (k : Kind)
    (h : (Slot.role .expression).admits k = true) :
    (Slot.role .propertyValue).admits k = true := by
  revert h
  cases k <;> decide

theorem Slot.argumentListElement_of_expression (k : Kind)
    (h : (Slot.role .expression).admits k = true) :
    (Slot.role .argumentListElement).admits k = true := by
  revert h
  cases k <;> decide

theorem Slot.moduleItem_of_statement (k : Kind)
    (h : (Slot.role .statement).admits k = true) :
    (Slot.role .moduleItem).admits k = true := by
  revert h
  cases k <;> decide

theorem Slot.statement_of_declaration (k : Kind)
    (h : (Slot.role .declaration).admits k = true) :
    (Slot.role .statement).admits k = true := by
  revert h
  cases k <;> decide

namespace Occupant

def toPropertyValue : Occupant (.role .expression) → Occupant (.role .propertyValue) :=
  widen Slot.propertyValue_of_expression

def toArgument : Occupant (.role .expression) → Occupant (.role .argumentListElement) :=
  widen Slot.argumentListElement_of_expression

def toModuleItem : Occupant (.role .statement) → Occupant (.role .moduleItem) :=
  widen Slot.moduleItem_of_statement

def toStatement : Occupant (.role .declaration) → Occupant (.role .statement) :=
  widen Slot.statement_of_declaration

end Occupant

end EcmaTree
