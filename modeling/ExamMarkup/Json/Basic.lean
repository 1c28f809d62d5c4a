import ExamMarkup.Decimal.Binary
import ExamMarkup.Text.Basic

/-!
# JSON values

The fields of an object keep their order; a name that occurs again replaces the earlier field.
A number remembers whether it was written as an integer. Values of other types are decoded
strictly: a value of another kind is refused.
-/

namespace ExamMarkup

inductive Json where
  | null
  | bool (value : Bool)
  | integer (value : Int)
  | real (negative : Bool) (magnitude : Decimal.Binary)
  | string (value : Text)
  | array (items : List Json)
  | object (fields : List (Text × Json))
  deriving Repr

namespace Json

abbrev Fields := List (Text × Json)

namespace Fields

def get? (fields : Fields) (name : Text) : Option Json :=
  fields.lookup name

/-- Fields with one set: in place if the name is there, else at the end. -/
def set : Fields → Text → Json → Fields
  | [], name, value => [(name, value)]
  | (key, old) :: rest, name, value =>
    if key = name then (key, value) :: rest else (key, old) :: set rest name value

end Fields

def field (name : String) (value : Json) : Text × Json := (name.toList, value)

def nat (n : Nat) : Json := .integer n

def text (s : String) : Json := .string s.toList

def ofOption (f : α → Json) : Option α → Json
  | none => .null
  | some a => f a

def bool? : Json → Option Bool
  | .bool b => some b
  | _ => none

def string? : Json → Option Text
  | .string t => some t
  | _ => none

def natBelow? (limit : Nat) : Json → Option Nat
  | .integer n => if 0 ≤ n ∧ n < limit then some n.toNat else none
  | _ => none

def fields? : Json → Option Fields
  | .object fields => some fields
  | _ => none

def items? : Json → Option (List Json)
  | .array items => some items
  | _ => none

/-- The name of a choice without content: a string, or an object with null under the name. -/
def choice? : Json → Option Text
  | .string name => some name
  | .object [(name, .null)] => some name
  | _ => none

/-- The values of a record: an object gives them by name, an array in the order of the record. -/
inductive Record where
  | named (fields : Fields)
  | listed (items : List Json)

def record? : Json → Option Record
  | .object fields => some (.named fields)
  | .array items => some (.listed items)
  | _ => none

namespace Record

def get? (r : Record) (position : Nat) (name : String) : Option Json :=
  match r with
  | named fields => fields.get? name.toList
  | listed items => items[position]?

/-- Whether a record gives no more values than it has room for; names it does not know take no
room. -/
def fits (r : Record) (size : Nat) : Bool :=
  match r with
  | named _ => true
  | listed items => items.length ≤ size

def decode? (r : Record) (position : Nat) (name : String) (default : α)
    (decode : Json → Option α) : Option α :=
  match r.get? position name with
  | none => some default
  | some value => decode value

end Record

/-- The record that a value holds, with at most as many values as it has room for. -/
def recordOf? (size : Nat) (value : Json) : Option Record :=
  value.record?.filter fun r => r.fits size

end Json

end ExamMarkup
