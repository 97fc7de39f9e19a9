import Breakthrough.Json.Record
import Breakthrough.Proofs.JsonText
import Breakthrough.Proofs.MoveText
import Breakthrough.Search.Export

/-!
# Dumps are read back

A reader of the file format, and the proof that it gets back from a dump's text what was written: the ply, the root, and
every record with its key, its visits and its edges. Only the total rewards are left out, as texts of doubles.
-/

namespace Breakthrough

namespace Json

def field? (key : String) : Json → Option Json
  | object fields => fields.lookup key
  | _ => none

@[simp]
theorem field?_cons (key k : String) (j : Json) (fields : List (String × Json)) :
    field? key (object ((k, j) :: fields)) = if key = k then some j else field? key (object fields) := by
  rw [field?, List.lookup_cons]
  by_cases h : key = k
  · rw [if_pos h, h, beq_self_eq_true]
  · rw [if_neg h, beq_eq_false_iff_ne.2 h]
    rfl

def items? : Json → Option (List Json)
  | list items => some items
  | _ => none

def natural? : Json → Option Nat
  | number l => l.natural?
  | _ => none

/-- A 32-bit counter. -/
def count? (j : Json) : Option UInt32 := (j.below? bound32).map UInt32.ofNat

/-- A hash, in hexadecimal digits. -/
def word? (j : Json) : Option UInt64 := j.text?.map fun s => UInt64.ofNat (Text.ofHex s.toList)

@[simp]
theorem natural?_ofNat (n : Nat) : (number (Decimal.Spelling.ofNat n).literal).natural? = some n :=
  Decimal.Spelling.natural?_ofNat n

@[simp]
theorem count?_ofNat (n : UInt32) : (number (Decimal.Spelling.ofNat n.toNat).literal).count? = some n := by
  have hbound : n.toNat < bound32 := n.toNat_lt
  simp [count?, below?, Decimal.Spelling.natural?_ofNat, hbound]

@[simp]
theorem word?_word64 (w : UInt64) : (string (Text.word64 w)).word? = some w := by
  simp [word?, text?, Text.ofHex_word64]

/-- Items that are read back one by one are read back as a list. -/
theorem exists_means_list {α β : Type} {toDoc : α → Doc} {read : Json → Option β} {f : α → β}
    (h : ∀ a, ∃ j, (toDoc a).Means j ∧ read j = some (f a)) (as : List α) :
    ∃ js, (Doc.list (as.map toDoc)).Means (.list js) ∧ js.mapM read = some (as.map f) := by
  choose json hmeans hread using h
  refine ⟨as.map json, Doc.means_list ?_, ?_⟩
  · rw [List.forall₂_map_left_iff, List.forall₂_map_right_iff, List.forall₂_same]
    exact fun a _ => hmeans a
  · induction as with
    | nil => rfl
    | cons a as ih => simp [hread, ih]

end Json

namespace Search

open Json Json.Doc

/-! ## The reader -/

/-- Reads an edge; its reward is passed over. -/
def Edge.read? (j : Json) : Option (Edge Unit) := do
  let move ← (← j.field? "action").text?
  return ⟨← Move.ofText? move, ← (← j.field? "visits").count?, ()⟩

def Record.read? (j : Json) : Option (Record Unit) := do
  let edges ← (← j.field? "children").items?
  return ⟨← (← j.field? "hash").word?, ← (← j.field? "visit_count").count?, ← edges.mapM Edge.read?⟩

def Dump.ofJson? (j : Json) : Option (Dump Unit) := do
  let nodes ← (← j.field? "nodes").items?
  return ⟨← (← j.field? "ply").natural?, ← (← j.field? "root").word?, ← nodes.mapM Record.read?⟩

/-- Reads a dump from its text, as any reader of JSON does. -/
def Dump.read? (text : String) : Option (Dump Unit) := (Json.parse? text).bind Dump.ofJson?

/-! ## What is read back -/

/-- An edge without its reward. -/
def Edge.bare {α : Type} (e : Edge α) : Edge Unit := ⟨e.move, e.visits, ()⟩

def Record.bare {α : Type} (r : Record α) : Record Unit := ⟨r.key, r.visits, r.edges.map Edge.bare⟩

/-- A dump without the rewards of its edges. -/
def Dump.bare {α : Type} (d : Dump α) : Dump Unit := ⟨d.ply, d.root, d.nodes.map Record.bare⟩

theorem Edge.exists_means (e : Edge Float) : ∃ j, e.toDoc.Means j ∧ Edge.read? j = some e.bare := by
  obtain ⟨total, htotal⟩ := exists_means_float e.total
  let count := Decimal.Spelling.ofNat e.visits.toNat
  refine ⟨.object [("action", .string e.move.text), ("visits", .number count.literal), ("total_reward", total)],
    means_object (.cons ⟨rfl, means_string _⟩ (.cons ⟨rfl, means_nat _⟩ (.cons ⟨rfl, htotal⟩ .nil))), ?_⟩
  simp [Edge.read?, text?, count, ofText?_text, Edge.bare]

theorem Record.exists_means (r : Record Float) : ∃ j, r.toDoc.Means j ∧ Record.read? j = some r.bare := by
  obtain ⟨edges, hedges, hread⟩ := exists_means_list Edge.exists_means r.edges
  let count := Decimal.Spelling.ofNat r.visits.toNat
  refine ⟨.object [("hash", .string (Text.word64 r.key)), ("visit_count", .number count.literal),
      ("children", .list edges)],
    means_object (.cons ⟨rfl, means_string _⟩ (.cons ⟨rfl, means_nat _⟩ (.cons ⟨rfl, hedges⟩ .nil))), ?_⟩
  simp [Record.read?, items?, count, hread, Record.bare]

theorem Dump.exists_means (d : Dump Float) : ∃ j, d.toDoc.Means j ∧ Dump.ofJson? j = some d.bare := by
  obtain ⟨nodes, hnodes, hread⟩ := exists_means_list Record.exists_means d.nodes
  let ply := Decimal.Spelling.ofNat d.ply
  refine ⟨.object [("ply", .number ply.literal), ("root", .string (Text.word64 d.root)), ("nodes", .list nodes)],
    means_object (.cons ⟨rfl, means_nat _⟩ (.cons ⟨rfl, means_string _⟩ (.cons ⟨rfl, hnodes⟩ .nil))), ?_⟩
  simp [Dump.ofJson?, items?, ply, hread, Dump.bare]

/-- **A dump is read back from its text**: its ply, its root, and its records with their keys, visits and edges. -/
theorem Dump.read?_text (d : Dump Float) : Dump.read? d.text = some d.bare := by
  obtain ⟨j, hmeans, hread⟩ := d.exists_means
  rw [Dump.read?, Dump.text, hmeans.parse?_pretty]
  exact hread

end Search

end Breakthrough
