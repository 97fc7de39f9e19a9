import Breakthrough.Json.Parser

/-!
# Records in documents

A record is written as an object whose keys name its fields, or as a list of its fields in order. A
field may have other names. Keys that name no field are passed over; a field given twice, under
whatever names, is refused.
-/

namespace Breakthrough.Json

/-- A field of a record: its names, whether it may be missing, and how its value is taken over. -/
structure Field (β : Type) where
  names : List String
  optional : Bool := false
  set : Json → β → Option β

namespace Field

variable {β : Type}

/-- A field that is read and then stored. -/
def of {γ : Type} (names : List String) (read : Json → Option γ) (store : β → γ → β) : Field β where
  names
  set j b := (read j).map (store b)

/-- Takes over the fields of an object; `seen` are the fields that have been given. -/
def readObject (fields : List (Field β)) :
    List (String × Json) → (seen : List Nat) → β → Option (List Nat × β)
  | [], seen, b => some (seen, b)
  | (key, j) :: rest, seen, b =>
    match fields.findIdx? fun f => f.names.contains key with
    | none => readObject fields rest seen b
    | some i =>
      if seen.contains i then none
      else do
        let f ← fields[i]?
        readObject fields rest (i :: seen) (← f.set j b)

/-- Takes over the fields of a list, in order. -/
def readList : List (Field β) → List Json → β → Option β
  | _, [], b => some b
  | [], _ :: _, _ => none
  | f :: fields, j :: rest, b => do readList fields rest (← f.set j b)

/-- Reads a record whose missing fields keep the values of `initial`. -/
def readWithDefaults (fields : List (Field β)) (initial : β) : Json → Option β
  | .object given => (readObject fields given [] initial).map Prod.snd
  | .list items => readList fields items initial
  | _ => none

/-- Reads a record that must be complete. A list gives every field, an object all that are not
optional. -/
def readComplete (fields : List (Field β)) (initial : β) : Json → Option β
  | .object given => do
    let (seen, b) ← readObject fields given [] initial
    guard (fields.zipIdx.all fun (f, i) => f.optional || seen.contains i)
    return b
  | .list items => if items.length = fields.length then readList fields items initial else none
  | _ => none

end Field

def bound32 : Nat := UInt32.size

def bound64 : Nat := UInt64.size

/-- A 64-bit number that may be null. -/
def seed? (j : Json) : Option (Option UInt64) :=
  orNull (fun j => (j.below? bound64).map UInt64.ofNat) j

end Breakthrough.Json
