import EcmaTree.Tree.Writing

/-!
# Handing over part by part

Values, documents and syntax trees are handed over to a receiver of events by
plain recursion, in an arbitrary monad.  The monad may keep a state, and it may
fail at any call, which cuts all the recursions short that are under way.  This
comes to the same as handing over the list of events, and feeding the list to a
consumer is the case of a monad with states and errors.

A document can be handed over as it stands, or turned into a value first.  Both
ways make the same calls in the same order, whatever becomes of the calls and
whatever type of numbers the document is made of.
-/

namespace EcmaTree

/-! ## Drivers -/

section Driving

variable {m : Type → Type} [Monad m] {ν : Type} [JsonNumber ν]

mutual

/-- Hands a value to a receiver of events, part by part. -/
def Value.drive (receive : Event → m Unit) : Value → m Unit
  | .null => receive .null
  | .bool b => receive (.bool b)
  | .int i => receive (.int i)
  | .float x => receive (.float x)
  | .text s => receive (.text s)
  | .array items => do
      receive (.start .array)
      Value.driveItems receive items
      receive (.finish .array)
  | .object members => do
      receive (.start .object)
      Value.driveMembers receive members
      receive (.finish .object)

def Value.driveItems (receive : Event → m Unit) : List Value → m Unit
  | [] => pure ()
  | v :: vs => do
      v.drive receive
      Value.driveItems receive vs

def Value.driveMembers (receive : Event → m Unit) : List (String × Value) → m Unit
  | [] => pure ()
  | (name, v) :: members => do
      receive (.member name)
      v.drive receive
      Value.driveMembers receive members

end

mutual

/-- Hands a document to a receiver of events, part by part. -/
def Json.drive (receive : Event → m Unit) : Json ν → m Unit
  | .null => receive .null
  | .bool b => receive (.bool b)
  | .number n =>
      match JsonNumber.toInt64? n with
      | some i => receive (.int i)
      | none => receive (.float ((JsonNumber.toBinary64? n).getD .nan))
  | .text s => receive (.text s)
  | .array items => do
      receive (.start .array)
      Json.driveItems receive items
      receive (.finish .array)
  | .object members => do
      receive (.start .object)
      Json.driveMembers receive members
      receive (.finish .object)

def Json.driveItems (receive : Event → m Unit) : List (Json ν) → m Unit
  | [] => pure ()
  | j :: js => do
      j.drive receive
      Json.driveItems receive js

def Json.driveMembers (receive : Event → m Unit) : List (String × Json ν) → m Unit
  | [] => pure ()
  | (name, j) :: members => do
      receive (.member name)
      j.drive receive
      Json.driveMembers receive members

end

def LiteralValue.drive (receive : Event → m Unit) : LiteralValue → m Unit
  | .null => receive .null
  | .bool b => receive (.bool b)
  | .number x =>
      if LiteralValue.isInteger x then receive (.int x.toInt64) else receive (.float x)
  | .text s => receive (.text s)
  | .regExp pattern flags => do
      receive (.start .object)
      receive (.member "pattern")
      receive (.text pattern)
      receive (.member "flags")
      receive (.text flags)
      receive (.finish .object)

def TemplateValue.drive (receive : Event → m Unit) (t : TemplateValue) : m Unit := do
  receive (.start .object)
  receive (.member "cooked")
  receive (.ofText? t.cooked)
  receive (.member "raw")
  receive (.text t.raw)
  receive (.finish .object)

mutual

/-- Hands a node to a receiver of events, field by field. -/
def Node.drive {k : Kind} (receive : Event → m Unit) : Node k → m Unit
  | .mk fields => do
      receive (.start .object)
      receive (.member "type")
      receive (.text k.name)
      fields.drive receive
      receive (.finish .object)

def Fields.drive {fs : List FieldSpec} (receive : Event → m Unit) : Fields fs → m Unit
  | .nil => pure ()
  | .cons (f := f) value fields => do
      value.drive receive f.name
      fields.drive receive

def FieldValue.drive {t : FieldType} (receive : Event → m Unit) (name : String) :
    FieldValue t → m Unit
  | .flag b => do
      receive (.member name)
      receive (.bool b)
  | .text s => do
      receive (.member name)
      receive (.text s)
  | .optionalText none => pure ()
  | .optionalText (some s) => do
      receive (.member name)
      receive (.text s)
  | .literal v => do
      receive (.member name)
      v.drive receive
  | .template v => do
      receive (.member name)
      v.drive receive
  | .word w => do
      receive (.member name)
      receive (.text (Word.text w))
  | .one child => do
      receive (.member name)
      child.drive receive
  | .absent => do
      receive (.member name)
      receive .null
  | .present child => do
      receive (.member name)
      child.drive receive
  | .many items => do
      receive (.member name)
      receive (.start .array)
      items.drive receive
      receive (.finish .array)
  | .holes items => do
      receive (.member name)
      receive (.start .array)
      items.drive receive
      receive (.finish .array)

def Items.drive {g : Bool} {s : Slot} (receive : Event → m Unit) : Items g s → m Unit
  | .nil => pure ()
  | .cons child items => do
      child.drive receive
      items.drive receive
  | .hole items => do
      receive .null
      items.drive receive

def Occupant.drive {s : Slot} (receive : Event → m Unit) : Occupant s → m Unit
  | .mk _ node => node.drive receive

end

def AnyNode.drive (receive : Event → m Unit) (n : AnyNode) : m Unit :=
  n.node.drive receive

/-! ## Drivers and lists of events -/

variable [LawfulMonad m]

mutual

theorem Value.forM_eventsThen (receive : Event → m Unit) :
    ∀ (v : Value) (rest : List Event),
      forM (v.eventsThen rest) receive = (do v.drive receive; forM rest receive)
  | .null, _ => List.forM_cons
  | .bool _, _ => List.forM_cons
  | .int _, _ => List.forM_cons
  | .float _, _ => List.forM_cons
  | .text _, _ => List.forM_cons
  | .array items, rest => by
      simp [Value.eventsThen, Value.drive, Value.forM_itemsThen receive items]
  | .object members, rest => by
      simp [Value.eventsThen, Value.drive, Value.forM_membersThen receive members]

theorem Value.forM_itemsThen (receive : Event → m Unit) :
    ∀ (items : List Value) (rest : List Event),
      forM (Value.itemsThen items rest) receive =
        (do Value.driveItems receive items; forM rest receive)
  | [], rest => by simp [Value.itemsThen, Value.driveItems]
  | v :: vs, rest => by
      simp [Value.itemsThen, Value.driveItems, Value.forM_eventsThen receive v,
        Value.forM_itemsThen receive vs]

theorem Value.forM_membersThen (receive : Event → m Unit) :
    ∀ (members : List (String × Value)) (rest : List Event),
      forM (Value.membersThen members rest) receive =
        (do Value.driveMembers receive members; forM rest receive)
  | [], rest => by simp [Value.membersThen, Value.driveMembers]
  | (name, v) :: members, rest => by
      simp [Value.membersThen, Value.driveMembers, Value.forM_eventsThen receive v,
        Value.forM_membersThen receive members]

end

mutual

theorem Json.forM_eventsThen (receive : Event → m Unit) :
    ∀ (j : Json ν) (rest : List Event),
      forM (j.eventsThen rest) receive = (do j.drive receive; forM rest receive)
  | .null, _ => List.forM_cons
  | .bool _, _ => List.forM_cons
  | .number n, rest => by
      rw [Json.eventsThen, JsonNumber.event, Json.drive, List.forM_cons]
      cases JsonNumber.toInt64? n <;> rfl
  | .text _, _ => List.forM_cons
  | .array items, rest => by
      simp [Json.eventsThen, Json.drive, Json.forM_itemsThen receive items]
  | .object members, rest => by
      simp [Json.eventsThen, Json.drive, Json.forM_membersThen receive members]

theorem Json.forM_itemsThen (receive : Event → m Unit) :
    ∀ (items : List (Json ν)) (rest : List Event),
      forM (Json.itemsThen items rest) receive =
        (do Json.driveItems receive items; forM rest receive)
  | [], rest => by simp [Json.itemsThen, Json.driveItems]
  | j :: js, rest => by
      simp [Json.itemsThen, Json.driveItems, Json.forM_eventsThen receive j,
        Json.forM_itemsThen receive js]

theorem Json.forM_membersThen (receive : Event → m Unit) :
    ∀ (members : List (String × Json ν)) (rest : List Event),
      forM (Json.membersThen members rest) receive =
        (do Json.driveMembers receive members; forM rest receive)
  | [], rest => by simp [Json.membersThen, Json.driveMembers]
  | (name, j) :: members, rest => by
      simp [Json.membersThen, Json.driveMembers, Json.forM_eventsThen receive j,
        Json.forM_membersThen receive members]

end

theorem LiteralValue.forM_eventsThen
    (receive : Event → m Unit) (v : LiteralValue) (rest : List Event) :
    forM (v.eventsThen rest) receive = (do v.drive receive; forM rest receive) := by
  cases v with
  | number x =>
      rw [eventsThen, numberEvent, drive, List.forM_cons]
      split <;> rfl
  | _ => simp [eventsThen, drive]

theorem TemplateValue.forM_eventsThen
    (receive : Event → m Unit) (t : TemplateValue) (rest : List Event) :
    forM (t.eventsThen rest) receive = (do t.drive receive; forM rest receive) := by
  simp [eventsThen, drive]

mutual

theorem Node.forM_eventsThen {k : Kind} (receive : Event → m Unit) :
    ∀ (n : Node k) (rest : List Event),
      forM (n.eventsThen rest) receive = (do n.drive receive; forM rest receive)
  | .mk fields, rest => by
      simp [Node.eventsThen, Node.drive, fields.forM_eventsThen receive]

theorem Fields.forM_eventsThen {fs : List FieldSpec} (receive : Event → m Unit) :
    ∀ (fields : Fields fs) (rest : List Event),
      forM (fields.eventsThen rest) receive = (do fields.drive receive; forM rest receive)
  | .nil, rest => by simp [Fields.eventsThen, Fields.drive]
  | .cons value fields, rest => by
      simp [Fields.eventsThen, Fields.drive, value.forM_memberThen receive,
        fields.forM_eventsThen receive]

theorem FieldValue.forM_memberThen
    {t : FieldType} (receive : Event → m Unit) (name : String) :
    ∀ (value : FieldValue t) (rest : List Event),
      forM (value.memberThen name rest) receive =
        (do value.drive receive name; forM rest receive)
  | .flag _, _ => by simp [FieldValue.memberThen, FieldValue.drive]
  | .text _, _ => by simp [FieldValue.memberThen, FieldValue.drive]
  | .optionalText none, _ => by simp [FieldValue.memberThen, FieldValue.drive]
  | .optionalText (some _), _ => by simp [FieldValue.memberThen, FieldValue.drive]
  | .literal v, _ => by
      simp [FieldValue.memberThen, FieldValue.drive, v.forM_eventsThen receive]
  | .template v, _ => by
      simp [FieldValue.memberThen, FieldValue.drive, v.forM_eventsThen receive]
  | .word _, _ => by simp [FieldValue.memberThen, FieldValue.drive]
  | .one (.mk _ node), _ => by
      simp [FieldValue.memberThen, FieldValue.drive, Occupant.eventsThen, Occupant.drive,
        node.forM_eventsThen receive]
  | .absent, _ => by simp [FieldValue.memberThen, FieldValue.drive]
  | .present (.mk _ node), _ => by
      simp [FieldValue.memberThen, FieldValue.drive, Occupant.eventsThen, Occupant.drive,
        node.forM_eventsThen receive]
  | .many items, _ => by
      simp [FieldValue.memberThen, FieldValue.drive, items.forM_eventsThen receive]
  | .holes items, _ => by
      simp [FieldValue.memberThen, FieldValue.drive, items.forM_eventsThen receive]

theorem Items.forM_eventsThen {g : Bool} {s : Slot} (receive : Event → m Unit) :
    ∀ (items : Items g s) (rest : List Event),
      forM (items.eventsThen rest) receive = (do items.drive receive; forM rest receive)
  | .nil, rest => by simp [Items.eventsThen, Items.drive]
  | .cons (.mk _ node) items, rest => by
      simp [Items.eventsThen, Items.drive, Occupant.eventsThen, Occupant.drive,
        node.forM_eventsThen receive, items.forM_eventsThen receive]
  | .hole items, rest => by
      simp [Items.eventsThen, Items.drive, items.forM_eventsThen receive]

end

/-- A value is handed over as its events are. -/
theorem Value.drive_eq_forM (receive : Event → m Unit) (v : Value) :
    v.drive receive = forM v.events receive := by
  rw [Value.events, Value.forM_eventsThen receive v, List.forM_nil, bind_pure_unit]

/-- A document is handed over as its events are. -/
theorem Json.drive_eq_forM (receive : Event → m Unit) (j : Json ν) :
    j.drive receive = forM j.events receive := by
  rw [Json.events, Json.forM_eventsThen receive j, List.forM_nil, bind_pure_unit]

/-- A tree is handed over as its events are. -/
theorem AnyNode.drive_eq_forM (receive : Event → m Unit) (n : AnyNode) :
    n.drive receive = forM n.events receive := by
  rw [AnyNode.drive, AnyNode.events, Node.events, n.node.forM_eventsThen receive, List.forM_nil,
    bind_pure_unit]

end Driving

/-! ## Consumers -/

namespace Event

variable {σ ε : Type} (consume : σ → Event → Except ε Unit × σ)

/-- A consumer as a receiver of events. -/
def receiver (e : Event) : ExceptT ε (StateM σ) Unit :=
  fun s => consume s e

/-- The consumer with a list of the calls made on it and its answers, latest first. -/
def logged (s : σ × List (Event × Except ε Unit)) (e : Event) :
    Except ε Unit × (σ × List (Event × Except ε Unit)) :=
  ((consume s.1 e).1, ((consume s.1 e).2, (e, (consume s.1 e).1) :: s.2))

theorem receiver_bind
    (e : Event) (next : Unit → ExceptT ε (StateM σ) Unit) (s : σ) :
    (receiver consume e >>= next) s =
      match consume s e with
      | (.ok (), s') => next () s'
      | (.error x, s') => (.error x, s') := by
  change ExceptT.bindCont next (consume s e).1 (consume s e).2 = _
  obtain ⟨answer, s'⟩ := consume s e
  cases answer <;> rfl

/-- Feeding a consumer is handing over in the monad of its states and errors. -/
theorem feed_eq_forM (es : List Event) (s : σ) :
    feed consume es s = (forM es (receiver consume) : ExceptT ε (StateM σ) Unit) s := by
  induction es generalizing s with
  | nil => rfl
  | cons e es ih =>
      rw [feed, List.forM_cons, receiver_bind]
      obtain ⟨answer, s'⟩ := consume s e
      cases answer with
      | error x => rfl
      | ok => exact ih s'

end Event

/-! ## What can be written -/

/-- A value, a document or a syntax tree. -/
inductive Writable (ν : Type) where
  | value (v : Value)
  | json (j : Json ν)
  | node (n : AnyNode)

variable {ν : Type} [JsonNumber ν]

namespace Writable

def events : Writable ν → List Event
  | value v => v.events
  | json j => j.events
  | node n => n.events

def encode : Writable ν → Except WriteError (List UInt8)
  | value v => v.encode
  | json j => j.encode
  | node n => n.encode

def drive {m : Type → Type} [Monad m] (receive : Event → m Unit) : Writable ν → m Unit
  | value v => v.drive receive
  | json j => j.drive receive
  | node n => n.drive receive

theorem drive_eq_forM
    {m : Type → Type} [Monad m] [LawfulMonad m] (receive : Event → m Unit) (x : Writable ν) :
    x.drive receive = forM x.events receive := by
  cases x with
  | value v => exact v.drive_eq_forM receive
  | json j => exact j.drive_eq_forM receive
  | node n => exact n.drive_eq_forM receive

theorem drive_receiver
    {σ ε : Type} (consume : σ → Event → Except ε Unit × σ) (x : Writable ν) (s : σ) :
    x.drive (Event.receiver consume) s = Event.feed consume x.events s := by
  rw [drive_eq_forM, Event.feed_eq_forM]

end Writable

/-- Writes the events of a value, a document or a tree. -/
def Writer.emit (w : Writer) : Writable ν → Except WriteError Unit × Writer
  | .value v => w.writeValue v
  | .json j => w.writeJson j
  | .node n => w.writeEvents n.events

/-- Writes a value or a document, or else a tree, which ends with a flush. -/
def Writer.put (w : Writer) : Writable ν → Except WriteError Unit × Writer
  | .value v => w.writeValue v
  | .json j => w.writeJson j
  | .node n => w.writeNode n

theorem Writer.emit_eq (w : Writer) (x : Writable ν) : w.emit x = w.writeEvents x.events := by
  cases x <;> rfl

/-! ## Documents and their values -/

mutual

theorem Value.eventsThen_ofJson :
    ∀ (j : Json ν) (rest : List Event), (Value.ofJson j).eventsThen rest = j.eventsThen rest
  | .null, _ => rfl
  | .bool _, _ => rfl
  | .number n, rest => by
      rw [Value.ofJson, Json.eventsThen, JsonNumber.event]
      cases JsonNumber.toInt64? n <;> rfl
  | .text _, _ => rfl
  | .array items, rest => by
      rw [Value.ofJson, Value.eventsThen, Json.eventsThen, Value.itemsThen_ofJsonItems items]
  | .object members, rest => by
      rw [Value.ofJson, Value.eventsThen, Json.eventsThen, Value.membersThen_ofJsonMembers members]

theorem Value.itemsThen_ofJsonItems :
    ∀ (items : List (Json ν)) (rest : List Event),
      Value.itemsThen (Value.ofJsonItems items) rest = Json.itemsThen items rest
  | [], _ => rfl
  | j :: js, rest => by
      rw [Value.ofJsonItems, Value.itemsThen, Json.itemsThen, Value.itemsThen_ofJsonItems js,
        Value.eventsThen_ofJson j]

theorem Value.membersThen_ofJsonMembers :
    ∀ (members : List (String × Json ν)) (rest : List Event),
      Value.membersThen (Value.ofJsonMembers members) rest = Json.membersThen members rest
  | [], _ => rfl
  | (name, j) :: members, rest => by
      rw [Value.ofJsonMembers, Value.membersThen, Json.membersThen,
        Value.membersThen_ofJsonMembers members, Value.eventsThen_ofJson j]

end

/-- A document is spelled out like its value. -/
theorem Value.events_ofJson (j : Json ν) : (Value.ofJson j).events = j.events :=
  Value.eventsThen_ofJson j []

theorem Json.drive_eq_drive_ofJson
    {m : Type → Type} [Monad m] [LawfulMonad m] (receive : Event → m Unit) (j : Json ν) :
    j.drive receive = (Value.ofJson j).drive receive := by
  rw [Json.drive_eq_forM, Value.drive_eq_forM, Value.events_ofJson]

/-- A document, whatever its numbers can be had as, is handed over like its value
to whatever receives events.  Feeding a consumer, which may refuse any call, is a
case of this, so that the calls made on it, their answers and the outcome are the
same; and so is writing. -/
theorem Json.written_like_value (j : Json ν) :
    (∀ (m : Type → Type) [Monad m] [LawfulMonad m] (receive : Event → m Unit),
      j.drive receive = (Value.ofJson j).drive receive) ∧
    (∀ (σ ε : Type) (consume : σ → Event → Except ε Unit × σ) (s : σ),
      Event.feed consume j.events s = j.drive (Event.receiver consume) s ∧
      Event.feed consume (Value.ofJson j).events s =
        (Value.ofJson j).drive (Event.receiver consume) s ∧
      Event.feed consume j.events s = Event.feed consume (Value.ofJson j).events s ∧
      Event.feed (Event.logged consume) j.events (s, []) =
        Event.feed (Event.logged consume) (Value.ofJson j).events (s, [])) ∧
    ∀ w : Writer, w.writeJson j = w.writeValue (Value.ofJson j) := by
  refine ⟨?_, ?_, ?_⟩
  · intro m _ _ receive
    exact Json.drive_eq_drive_ofJson receive j
  · intro σ ε consume s
    have hdocument : Event.feed consume j.events s = j.drive (Event.receiver consume) s := by
      rw [Event.feed_eq_forM, Json.drive_eq_forM]
    have hvalue : Event.feed consume (Value.ofJson j).events s =
        (Value.ofJson j).drive (Event.receiver consume) s := by
      rw [Event.feed_eq_forM, Value.drive_eq_forM]
    refine ⟨hdocument, hvalue, ?_, ?_⟩
    · rw [hdocument, hvalue, Json.drive_eq_drive_ofJson]
    · rw [Value.events_ofJson]
  · intro w
    rw [Writer.writeJson, Writer.writeValue, Value.events_ofJson]

/-- A consumer that refuses its second call is given the start of the array and
a number beyond the integers, and nothing else. -/
theorem Json.written_like_value_refused :
    let j : Json Numeral := .array [.number (.unsigned 0xFFFFFFFFFFFFFFFF), .null]
    let consume : Nat → Event → Except String Unit × Nat := fun n _ =>
      if n = 1 then (.error "full", n) else (.ok (), n + 1)
    j.drive (Event.receiver consume) = (Value.ofJson j).drive (Event.receiver consume) ∧
      Event.feed (Event.logged consume) (Value.ofJson j).events (0, []) =
        (.error "full", 1, [(.float ⟨0x43F0000000000000⟩, .error "full"),
          (.start .array, .ok ())]) := by
  intro j consume
  obtain ⟨hdrive, hfeed, -⟩ := Json.written_like_value j
  refine ⟨hdrive _ (Event.receiver consume), ?_⟩
  obtain ⟨-, -, -, hlogged⟩ := hfeed Nat String consume 0
  rw [← hlogged]
  rfl

end EcmaTree
