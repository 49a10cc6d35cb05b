import EcmaTree.Bytes.LittleEndian
import EcmaTree.Data.Value
import EcmaTree.Event
import EcmaTree.Stream.Source
import EcmaTree.Text.Utf8
import EcmaTree.Wire.Tag

/-!
# Decoding

`Source.decode` reads one value from a source.  The containers that are still
open are kept as a list of frames, innermost first, so that the depth of a value
costs no recursion, and a bound on their number guards against hostile input.

`Decoder.step` reads one item: a scalar, the start or the end of a container, or
the name of a member. Each step reads at least one byte, which is why decoding
ends on every source.  Steps are put together from reads of bytes, so what holds
of these and is kept by sequencing holds of steps: see `Decoder.Compositional`.
-/

namespace EcmaTree

/-- What a tag was expected to begin. -/
inductive Expectation where
  | value
  | text
  | textLength
  deriving DecidableEq, Repr

def Expectation.message : Expectation → String
  | .value => "a value"
  | .text => "a string"
  | .textLength => "a string length"

/-- Why no value can be read. -/
inductive DecodeError where
  | source (fault : Fault)
  | unexpectedEnd
  | invalidTag (b : UInt8)
  | unexpectedTag (expected : Expectation) (found : UInt8)
  | invalidLength (length : Int64)
  | encoding (malformed : Utf8.Malformed)
  | tooDeep (bound : Nat)
  deriving DecidableEq, Repr

/-- The two lower case hexadecimal digits of a byte. -/
def hexByte (b : UInt8) : String :=
  String.ofList [Nat.digitChar (b.toNat / 16), Nat.digitChar (b.toNat % 16)]

def DecodeError.message : DecodeError → String
  | .source fault => s!"read error: {fault.message}"
  | .unexpectedEnd => "unexpected end of stream"
  | .invalidTag b => s!"invalid tag 0x{hexByte b}"
  | .unexpectedTag expected found => s!"expected {expected.message}, found tag 0x{hexByte found}"
  | .invalidLength length => s!"invalid length {length.toInt}"
  | .encoding malformed => s!"invalid UTF-8: {malformed.message}"
  | .tooDeep bound => s!"nesting deeper than {bound} containers"

/-- A fault of the source as a decoding error; data that ends too early has an
error of its own. -/
def DecodeError.ofFault (fault : Fault) : DecodeError :=
  if fault.kind = .unexpectedEof then .unexpectedEnd else .source fault

/-- A computation that reads from a source. -/
abbrev Decode := EStateM DecodeError Source

namespace Decoder

/-- A container that is still open, its contents latest first. -/
inductive Frame where
  | array (items : List Value)
  /-- An object, and the name of the member whose value comes next, if read. -/
  | object (members : List (String × Value)) (name : Option String)
  deriving Repr

/-- The frame of a container that has just been opened. -/
def Frame.fresh : Container → Frame
  | .array => .array []
  | .object => .object [] none

def takeBytes (n : Nat) : Decode (List UInt8) := fun source =>
  match source.take n with
  | (.ok bytes, source') => .ok bytes source'
  | (.error fault, source') => .error (.ofFault fault) source'

def takeByte : Decode UInt8 :=
  (·.headD 0) <$> takeBytes 1

def takeInt32 : Decode Int64 :=
  (fun bytes => (LittleEndian.unpackInt32 bytes).toInt64) <$> takeBytes 4

def takeInt64 : Decode Int64 :=
  LittleEndian.unpackInt64 <$> takeBytes 8

def takeBinary64 : Decode Binary64 :=
  LittleEndian.unpackBinary64 <$> takeBytes 8

/-- Reads the rest of the length of a text, an integer whose tag is `b`. -/
def takeLengthInteger (b : UInt8) : Decode Int64 :=
  match Tag.ofByte? b with
  | some .int32 => takeInt32
  | some .int64 => takeInt64
  | _ => throw (.unexpectedTag .textLength b)

/-- The number of bytes that a length announces. -/
def lengthOfInteger (length : Int64) : Decode Nat :=
  if length.toInt < 0 then throw (.invalidLength length) else pure length.toInt.toNat

/-- Reads the length of a text, an integer with its tag. -/
def takeLength : Decode Nat :=
  takeByte >>= takeLengthInteger >>= lengthOfInteger

def textOfBytes (bytes : List UInt8) : Decode String :=
  match Utf8.decode bytes with
  | .ok s => pure s
  | .error malformed => throw (.encoding malformed)

/-- Reads the rest of a text whose first byte is `b`. -/
def takeText (b : UInt8) : Decode String :=
  match Tag.ofByte? b with
  | some .char => takeBytes 1 >>= textOfBytes
  | some .string => takeLength >>= takeBytes >>= textOfBytes
  | _ => throw (.unexpectedTag .text b)

/-- Reads the rest of a value whose first byte is `b`, or tells which container
it opens. -/
def takeStart (b : UInt8) : Decode (Value ⊕ Container) :=
  match Tag.ofByte? b with
  | none => throw (.invalidTag b)
  | some .null => pure (.inl .null)
  | some .true => pure (.inl (.bool true))
  | some .false => pure (.inl (.bool false))
  | some .int32 => (fun i => .inl (.int i)) <$> takeInt32
  | some .int64 => (fun i => .inl (.int i)) <$> takeInt64
  | some .float64 => (fun x => .inl (.float x)) <$> takeBinary64
  | some .char => (fun s => .inl (.text s)) <$> takeText b
  | some .string => (fun s => .inl (.text s)) <$> takeText b
  | some .arrayStart => pure (.inr .array)
  | some .objectStart => pure (.inr .object)
  | some .arrayEnd => throw (.unexpectedTag .value b)
  | some .objectEnd => throw (.unexpectedTag .value b)

/-- Where decoding stands after an item. -/
inductive Progress where
  | finished (v : Value)
  | pending (stack : List Frame)
  deriving Repr

/-- Puts a complete value where it belongs; an object takes it under the name
that it has been given. -/
def attach (v : Value) : List Frame → Progress
  | [] => .finished v
  | .array items :: outer => .pending (.array (v :: items) :: outer)
  | .object members (some name) :: outer => .pending (.object ((name, v) :: members) none :: outer)
  | .object members none :: outer => .pending (.object members none :: outer)

/-- Puts a value in its place, or opens a container if one more is allowed. -/
def place (bound : Nat) (stack : List Frame) : Value ⊕ Container → Decode Progress
  | .inl v => pure (attach v stack)
  | .inr c =>
    if bound ≤ stack.length then throw (.tooDeep bound)
    else pure (.pending (Frame.fresh c :: stack))

/-- Deals with an item that begins a value. -/
def stepValue (bound : Nat) (stack : List Frame) (b : UInt8) : Decode Progress :=
  takeStart b >>= place bound stack

/-- Deals with an item whose first byte is `b`. -/
def stepByte (bound : Nat) (stack : List Frame) (b : UInt8) : Decode Progress :=
  match stack with
  | .array items :: outer =>
    if b = Tag.arrayEnd.byte then pure (attach (.array items.reverse) outer)
    else stepValue bound stack b
  | .object members none :: outer =>
    if b = Tag.objectEnd.byte then pure (attach (.object members.reverse) outer)
    else (fun name => .pending (.object members (some name) :: outer)) <$> takeText b
  | _ => stepValue bound stack b

/-- Reads one item. -/
def step (bound : Nat) (stack : List Frame) : Decode Progress :=
  takeByte >>= stepByte bound stack

/-! ## Properties of all reading functions -/

/-- A property that computations have as soon as their parts do, and that reading
bytes has.  All the functions that read have it then. -/
structure Compositional (P : {α : Type} → Decode α → Prop) : Prop where
  pure {α : Type} (a : α) : P (pure a : Decode α)
  throw {α : Type} (error : DecodeError) : P (throw error : Decode α)
  bind {α β : Type} {m : Decode α} {f : α → Decode β} (hm : P m) (hf : ∀ a, P (f a)) :
    P (m >>= f)
  takeBytes (n : Nat) : P (takeBytes n)

namespace Compositional

variable {P : {α : Type} → Decode α → Prop}

theorem map (h : Compositional P) {α β : Type} {m : Decode α} (f : α → β) (hm : P m) :
    P (f <$> m) := by
  rw [← bind_pure_comp]
  exact h.bind hm fun a => h.pure (f a)

theorem takeByte (h : Compositional P) : P Decoder.takeByte :=
  h.map _ (h.takeBytes 1)

theorem takeInt32 (h : Compositional P) : P Decoder.takeInt32 :=
  h.map _ (h.takeBytes 4)

theorem takeInt64 (h : Compositional P) : P Decoder.takeInt64 :=
  h.map _ (h.takeBytes 8)

theorem takeBinary64 (h : Compositional P) : P Decoder.takeBinary64 :=
  h.map _ (h.takeBytes 8)

theorem takeLengthInteger (h : Compositional P) (b : UInt8) : P (Decoder.takeLengthInteger b) := by
  unfold Decoder.takeLengthInteger
  split
  · exact h.takeInt32
  · exact h.takeInt64
  · exact h.throw _

theorem lengthOfInteger (h : Compositional P) (length : Int64) :
    P (Decoder.lengthOfInteger length) := by
  unfold Decoder.lengthOfInteger
  split
  · exact h.throw _
  · exact h.pure _

theorem takeLength (h : Compositional P) : P Decoder.takeLength :=
  h.bind (h.bind h.takeByte h.takeLengthInteger) h.lengthOfInteger

theorem textOfBytes (h : Compositional P) (bytes : List UInt8) : P (Decoder.textOfBytes bytes) := by
  unfold Decoder.textOfBytes
  split
  · exact h.pure _
  · exact h.throw _

theorem takeText (h : Compositional P) (b : UInt8) : P (Decoder.takeText b) := by
  unfold Decoder.takeText
  split
  · exact h.bind (h.takeBytes 1) h.textOfBytes
  · exact h.bind (h.bind h.takeLength h.takeBytes) h.textOfBytes
  · exact h.throw _

theorem takeStart (h : Compositional P) (b : UInt8) : P (Decoder.takeStart b) := by
  unfold Decoder.takeStart
  split
  · exact h.throw _
  · exact h.pure _
  · exact h.pure _
  · exact h.pure _
  · exact h.map _ h.takeInt32
  · exact h.map _ h.takeInt64
  · exact h.map _ h.takeBinary64
  · exact h.map _ (h.takeText b)
  · exact h.map _ (h.takeText b)
  · exact h.pure _
  · exact h.pure _
  · exact h.throw _
  · exact h.throw _

theorem place (h : Compositional P) (bound : Nat) (stack : List Frame) (item : Value ⊕ Container) :
    P (Decoder.place bound stack item) := by
  unfold Decoder.place
  split
  · exact h.pure _
  · split
    · exact h.throw _
    · exact h.pure _

theorem stepValue (h : Compositional P) (bound : Nat) (stack : List Frame) (b : UInt8) :
    P (Decoder.stepValue bound stack b) :=
  h.bind (h.takeStart b) (h.place bound stack)

theorem stepByte (h : Compositional P) (bound : Nat) (stack : List Frame) (b : UInt8) :
    P (Decoder.stepByte bound stack b) := by
  unfold Decoder.stepByte
  split
  · split
    · exact h.pure _
    · exact h.stepValue bound _ b
  · split
    · exact h.pure _
    · exact h.map _ (h.takeText b)
  · exact h.stepValue bound stack b

theorem step (h : Compositional P) (bound : Nat) (stack : List Frame) :
    P (Decoder.step bound stack) :=
  h.bind h.takeByte (h.stepByte bound stack)

end Compositional

/-! ## Reading to the end -/

/-- The source as a computation leaves it, whether it succeeds or not. -/
def sourceAfter {α : Type} (m : Decode α) (source : Source) : Source :=
  match m source with
  | .ok _ source' => source'
  | .error _ source' => source'

/-- A computation that gives no bytes back. -/
def Consumes {α : Type} (m : Decode α) : Prop :=
  ∀ source, (sourceAfter m source).unread.length ≤ source.unread.length

theorem consumes_bind {α β : Type} {m : Decode α} {f : α → Decode β}
    (hm : Consumes m) (hf : ∀ a, Consumes (f a)) : Consumes (m >>= f) := by
  intro source
  have hfirst := hm source
  simp only [sourceAfter, bind, EStateM.bind] at hfirst ⊢
  cases hms : m source with
  | ok a source' =>
    have hsecond := hf a source'
    simp only [hms, sourceAfter] at hfirst hsecond ⊢
    omega
  | error e source' => simpa only [hms] using hfirst

theorem sourceAfter_takeBytes (n : Nat) (source : Source) :
    sourceAfter (takeBytes n) source = (source.take n).2 := by
  rw [sourceAfter, takeBytes]
  cases source.take n with
  | mk outcome source' =>
    cases outcome with
    | ok bytes => rfl
    | error fault => rfl

theorem consumes_takeBytes (n : Nat) : Consumes (takeBytes n) := by
  intro source
  rw [sourceAfter_takeBytes]
  exact source.take_unread_le n

theorem compositional_consumes : Compositional Consumes where
  pure _ _ := Nat.le_refl _
  throw _ _ := Nat.le_refl _
  bind := consumes_bind
  takeBytes := consumes_takeBytes

/-- A byte that has been read is no longer there. -/
theorem takeByte_unread_of_ok {source source' : Source} {b : UInt8}
    (h : takeByte source = .ok b source') :
    source'.unread.length + 1 = source.unread.length := by
  simp only [takeByte, takeBytes, Functor.map, EStateM.map] at h
  cases htake : source.take 1 with
  | mk outcome after =>
    rw [htake] at h
    cases outcome with
    | ok bytes =>
      cases h
      exact Source.take_unread_of_ok htake
    | error fault => cases h

/-- A step that succeeds has read something. -/
theorem step_unread_lt {bound : Nat} {stack : List Frame} {source source' : Source}
    {progress : Progress} (h : step bound stack source = .ok progress source') :
    source'.unread.length < source.unread.length := by
  simp only [step, bind, EStateM.bind] at h
  split at h
  next b middle hbyte =>
    have hfirst := takeByte_unread_of_ok hbyte
    have hrest := compositional_consumes.stepByte bound stack b middle
    simp only [sourceAfter, h] at hrest
    omega
  · cases h

/-- Reads items until the value that they make up is complete. -/
def run (bound : Nat) (stack : List Frame) (source : Source) : Except DecodeError Value × Source :=
  match _h : step bound stack source with
  | .ok (.finished v) source' => (.ok v, source')
  | .ok (.pending stack') source' => run bound stack' source'
  | .error error source' => (.error error, source')
termination_by source.unread.length
decreasing_by exact step_unread_lt _h

/-- The bound on open containers where none is given. -/
def defaultBound : Nat := 4096

end Decoder

/-- Reads one value with at most `bound` containers around any place in it. -/
def Source.decode (source : Source) (bound : Nat) : Except DecodeError Value × Source :=
  Decoder.run bound [] source

/-- The outcomes of several reads in a row, each of which goes on where the one
before it stopped. -/
def Source.decodeTimes (source : Source) (bound : Nat) :
    Nat → List (Except DecodeError Value) × Source
  | 0 => ([], source)
  | n + 1 =>
    match source.decode bound with
    | (outcome, source') =>
      match source'.decodeTimes bound n with
      | (outcomes, source'') => (outcome :: outcomes, source'')

/-- The value at the start of given bytes. -/
def Value.decode (bytes : List UInt8) : Except DecodeError Value :=
  ((⟨bytes, 0, []⟩ : Source).decode Decoder.defaultBound).1

end EcmaTree
