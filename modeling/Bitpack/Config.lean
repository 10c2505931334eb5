import Bitpack.Dtype
import Bitpack.Element.Name
import Bitpack.Json.Range
import Bitpack.Layout

/-!
Configurations of a stream: the numeric type of the file, the element type, the shape and the
options, all in one JSON object. Options may be missing; keys without a meaning are ignored.
-/
namespace Bitpack

namespace Packing.Options

def members (o : Options) : List (String × Json) :=
  [("reverse_inner", .boolean o.reverseInner), ("num_reps", .ofNat o.repetitions),
    ("multi_pixel_out", .ofNat o.blocks)]

def toJson (o : Options) : Json :=
  .ofMembers o.members

def ofMembers? (members : List (List Char × Json)) : Option Options := do
  let reverseInner ← Json.optional? members "reverse_inner" Json.boolean? default.reverseInner
  let repetitions ← Json.optional? members "num_reps" Json.natural? default.repetitions
  let blocks ← Json.optional? members "multi_pixel_out" Json.natural? default.blocks
  return ⟨reverseInner, repetitions, blocks⟩

def item? {α : Type} (items : List Json) (i : Nat) (read : Json → Option α) (default : α) :
    Option α :=
  match items[i]? with
  | none => some default
  | some value => read value

/-- Options alone are an object, or a list in the order of their fields. -/
def ofJson? : Json → Option Options
  | .object members => (Json.keyed? members).bind ofMembers?
  | .list items => do
    let reverseInner ← item? items 0 Json.boolean? default.reverseInner
    let repetitions ← item? items 1 Json.natural? default.repetitions
    let blocks ← item? items 2 Json.natural? default.blocks
    if items.length ≤ 3 then some ⟨reverseInner, repetitions, blocks⟩ else none
  | _ => none

def parse? (text : String) : Option Options :=
  (Json.parse? text.toList).bind ofJson?

end Packing.Options

structure Config where
  dtype : Dtype
  element : ElementType
  shape : List Nat
  options : Packing.Options
  deriving DecidableEq, Repr

namespace Config

def slotOf (size : IntSize) : SlotWidth where
  bits := 8 * size.bytes
  pos := by cases size <;> decide
  le := by cases size <;> decide

/-- The element type of the same kind and width; doubles have none and become singles. -/
def defaultElement : Dtype → ElementType
  | .int size => .int (slotOf size)
  | .uint size => .uint (slotOf size)
  | .float .half => .float16
  | .float .single => .float32
  | .float .double => .float32

def ofFile (d : Dtype) (shape : List Nat) : Config :=
  ⟨d, defaultElement d, shape, Packing.Options.default⟩

def toJson (c : Config) : Json :=
  .ofMembers ([("npy_dtype", .ofString c.dtype.name), ("elem_type", .ofString c.element.name),
    ("shape", .list (c.shape.map .ofNat))] ++ c.options.members)

def dtype? : Json → Option Dtype
  | .text content => content.bind named?
  | .object [(key, .null)] => key.bind named?
  | _ => none
where
  named? (name : List Char) : Option Dtype := Dtype.all.find? fun d => d.name.toList == name

def element? (value : Json) : Option ElementType :=
  value.text?.bind fun name => (ElementType.parse (String.ofList name)).toOption

def shape? : Json → Option (List Nat)
  | .list items => items.mapM Json.natural?
  | _ => none

/-- The keys of a configuration that are read in their own way. -/
def ownKeys : List (List Char) :=
  ["npy_dtype", "elem_type", "shape"].map String.toList

def maxDepth : Nat := 126

def ofJson? : Json → Option Config
  | .object members => do
    let members ← Json.keyed? members
    let others := members.filter fun m => !ownKeys.contains m.1
    if others.all fun m => m.2.isKept maxDepth then
      let dtype ← dtype? (← Json.required? members "npy_dtype")
      let element ← element? (← Json.required? members "elem_type")
      let shape ← shape? (← Json.required? members "shape")
      return ⟨dtype, element, shape, ← Packing.Options.ofMembers? members⟩
    else none
  | _ => none

def parse? (text : String) : Option Config :=
  (Json.parse? text.toList).bind ofJson?

def compactText (c : Config) : String :=
  String.ofList c.toJson.compact

def prettyText (c : Config) : String :=
  String.ofList (c.toJson.pretty 0)

end Config

end Bitpack
