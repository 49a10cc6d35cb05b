import EcmaTree.Tree.Node

/-!
# Drafts of syntax trees

A draft describes a node loosely, as a record of named fields one of which tells
the kind.  `Draft.build` makes a tree out of it where it fits the schema, and
otherwise tells the first place where it does not. Fields are taken in the order
of the schema, and a child is built before its place is looked at.
-/

namespace EcmaTree

/-- A loose description of a node or of the value of a field. -/
inductive Draft where
  | null
  | flag (b : Bool)
  | number (x : Binary64)
  | text (s : String)
  | list (items : List Draft)
  | record (members : List (String × Draft))
  /-- A description of something that no field holds. -/
  | other
  deriving Inhabited, Repr

/-- Why a draft does not fit the schema. -/
inductive DraftError where
  /-- The draft as a whole does not describe a node. -/
  | notANode
  | unknownKind (name : String)
  /-- A field is missing or has a value of the wrong type. -/
  | badField (k : Kind) (field : String)
  /-- A node does not play the role that its place wants. -/
  | badSlot (k : Kind) (field : String) (wanted : Role) (found : Kind)
  /-- A node is not of the kind that its place wants. -/
  | badKind (k : Kind) (field : String) (wanted found : Kind)
  deriving DecidableEq, Repr

def DraftError.message : DraftError → String
  | .notANode => "not a node"
  | .unknownKind name => name
  | .badField k field => s!"{k.name}.{field}"
  | .badSlot k field wanted found =>
    s!"{k.name}.{field}: {wanted.slotName} rejects {found.name}"
  | .badKind k field wanted found =>
    s!"{k.name}.{field}: {wanted.name} expected, found {found.name}"

namespace Draft

def lookup (name : String) (members : List (String × Draft)) : Option Draft :=
  (members.find? (·.1 == name)).map Prod.snd

/-- The name of the kind that a record tells. -/
def kindName? (members : List (String × Draft)) : Option String :=
  match lookup "type" members with
  | some (.text name) => some name
  | _ => none

/-- What a field holds when nothing is given for it. -/
def default? : (t : FieldType) → Option (FieldValue t)
  | .optionalText => some (.optionalText none)
  | .literal => some (.literal .null)
  | .maybe _ => some .absent
  | _ => none

def literal? : Draft → Option LiteralValue
  | .flag b => some (.bool b)
  | .number x => some (.number x)
  | .text s => some (.text s)
  | .record members =>
    match lookup "pattern" members, lookup "flags" members with
    | some (.text pattern), some (.text flags) => some (.regExp pattern flags)
    | _, _ => none
  | _ => none

def template? : Draft → Option TemplateValue
  | .record members =>
    match (lookup "cooked" members).getD .null, lookup "raw" members with
    | .null, some (.text raw) => some ⟨none, raw⟩
    | .text cooked, some (.text raw) => some ⟨some cooked, raw⟩
    | _, _ => none
  | _ => none

/-- Why a slot of a field of a node of kind `k` does not take a node. -/
def rejection (k : Kind) (field : String) (found : Kind) : Slot → DraftError
  | .role wanted => .badSlot k field wanted found
  | .kind wanted => .badKind k field wanted found
  | .any => .badField k field

/-- Puts a node into a slot of a field of a node of kind `k`. -/
def occupy (k : Kind) (field : String) (s : Slot) (n : AnyNode) : Except DraftError (Occupant s) :=
  match n.occupy? s with
  | some occupant => .ok occupant
  | none => .error (rejection k field n.kind s)

/-- Collects the values of fields, each of which is made by the same rule, in order. -/
def assemble (make : (f : FieldSpec) → Except DraftError (FieldValue f.type)) :
    (fs : List FieldSpec) → Except DraftError (Fields fs)
  | [] => .ok .nil
  | f :: fs =>
    match make f with
    | .error error => .error error
    | .ok value => (assemble make fs).map (.cons value)

mutual

/-- The node that a draft describes, or nothing if it does not describe one at all. -/
def node? : Draft → Option (Except DraftError AnyNode)
  | .record members =>
    match kindName? members with
    | none => none
    | some name =>
      match Kind.ofName? name with
      | none => some (.error (.unknownKind name))
      | some k =>
        some ((assemble (fun f => memberValue k f members) k.fields).map fun fields =>
          ⟨Node.mk fields⟩)
  | _ => none
termination_by d => (sizeOf d, 0)

/-- The value of a field among the members of a record. -/
def memberValue (k : Kind) (f : FieldSpec) :
    List (String × Draft) → Except DraftError (FieldValue f.type)
  | [] => ((default? f.type).map Except.ok).getD (.error (.badField k f.name))
  | (name, d) :: members =>
    if name = f.name then fieldValue k f.name f.type d else memberValue k f members
termination_by members => (sizeOf members, 0)

def fieldValue (k : Kind) (field : String) :
    (t : FieldType) → Draft → Except DraftError (FieldValue t)
  | t, .null => ((default? t).map Except.ok).getD (.error (.badField k field))
  | .flag, .flag b => .ok (.flag b)
  | .text, .text s => .ok (.text s)
  | .optionalText, .text s => .ok (.optionalText (some s))
  | .literal, d =>
    match d.literal? with
    | some v => .ok (.literal v)
    | none => .error (.badField k field)
  | .template, d =>
    match d.template? with
    | some t => .ok (.template t)
    | none => .error (.badField k field)
  | .word v, .text s =>
    match Word.ofText? v.Entry s with
    | some w => .ok (.word w)
    | none => .error (.badField k field)
  | .one s, d => (occupant k field s d).map .one
  | .maybe s, d => (occupant k field s d).map .present
  | .many s, .list items => (occupants k field s items).map .many
  | .holes s, .list items => (sparseOccupants k field s items).map .holes
  | _, _ => .error (.badField k field)
termination_by _ d => (sizeOf d, 2)

/-- The node that a draft describes, in its slot. -/
def occupant (k : Kind) (field : String) (s : Slot) (d : Draft) :
    Except DraftError (Occupant s) :=
  match d.node? with
  | none => .error (.badField k field)
  | some (.error error) => .error error
  | some (.ok n) => occupy k field s n
termination_by (sizeOf d, 1)

/-- The nodes that drafts describe, in their slot. -/
def occupants (k : Kind) (field : String) (s : Slot) :
    List Draft → Except DraftError (Items false s)
  | [] => .ok .nil
  | d :: ds =>
    match occupant k field s d with
    | .error error => .error error
    | .ok child => (occupants k field s ds).map (.cons child)
termination_by ds => (sizeOf ds, 0)

/-- The nodes and gaps that drafts describe, in their slot. -/
def sparseOccupants (k : Kind) (field : String) (s : Slot) :
    List Draft → Except DraftError (Items true s)
  | [] => .ok .nil
  | .null :: ds => (sparseOccupants k field s ds).map .hole
  | d :: ds =>
    match occupant k field s d with
    | .error error => .error error
    | .ok child => (sparseOccupants k field s ds).map (.cons child)
termination_by ds => (sizeOf ds, 0)

end

def build (d : Draft) : Except DraftError AnyNode :=
  d.node?.getD (.error .notANode)

end Draft

end EcmaTree
