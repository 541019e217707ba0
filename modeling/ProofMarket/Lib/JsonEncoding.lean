import ProofMarket.Lib.Json

/-!
# Types with a JSON representation

An `Encoding` writes the values of a type as JSON and reads them back. It carries its law, and it
needs no escapes.

* `read_write` — **the text of a value is read back.**
-/

namespace Json

structure Encoding (α : Type) where
  toJson : α → Json
  ofJson : Json → Option α
  plain : ∀ a, (toJson a).Plain
  ofJson_toJson : ∀ a, ofJson (toJson a) = some a

/-- The value of a key. A key that is missing or occurs twice is an error; other keys are
ignored. -/
def field (key : String) (fields : List (List Char × Json)) : Option Json :=
  match fields.filter (fun f => f.1 = key.toList) with
  | [f] => some f.2
  | _ => none

namespace Encoding

variable {α β : Type}

/-- Numbers, of which `parse` takes those in range. -/
def number (repr : α → Nat) (parse : Nat → Option α) (h : ∀ a, parse (repr a) = some a) :
    Encoding α where
  toJson a := .num (repr a)
  ofJson
    | .num n => parse n
    | _ => none
  plain _ := by rw [Plain]; trivial
  ofJson_toJson := h

/-- Strings. -/
def text (repr : α → List Char) (parse : List Char → Option α)
    (hplain : ∀ a, (repr a).all plainChar = true) (h : ∀ a, parse (repr a) = some a) :
    Encoding α where
  toJson a := .str (repr a)
  ofJson
    | .str s => parse s
    | _ => none
  plain a := by rw [Plain]; exact hplain a
  ofJson_toJson := h

/-- Values written as those of another type. -/
def through (e : Encoding α) (repr : β → α) (parse : α → Option β)
    (h : ∀ b, parse (repr b) = some b) : Encoding β where
  toJson b := e.toJson (repr b)
  ofJson v := (e.ofJson v).bind parse
  plain b := e.plain (repr b)
  ofJson_toJson b := by rw [e.ofJson_toJson, Option.bind_some, h]

theorem plain_items (e : Encoding α) (as : List α) : PlainItems (as.map e.toJson) := by
  induction as with
  | nil => rw [List.map_nil, PlainItems]; trivial
  | cons a as ih => rw [List.map_cons, PlainItems]; exact ⟨e.plain a, ih⟩

theorem mapM_ofJson (e : Encoding α) (as : List α) :
    (as.map e.toJson).mapM e.ofJson = some as := by
  induction as with
  | nil => rfl
  | cons a as ih => simp [e.ofJson_toJson, ih]

/-- Arrays. -/
def list (e : Encoding α) : Encoding (List α) where
  toJson as := .arr (as.map e.toJson)
  ofJson
    | .arr vs => vs.mapM e.ofJson
    | _ => none
  plain as := by rw [Plain]; exact e.plain_items as
  ofJson_toJson := e.mapM_ofJson

/-- The field of an object. -/
def field (e : Encoding α) (key : String) (fields : List (List Char × Json)) : Option α :=
  (Json.field key fields).bind e.ofJson

/-- The text of a value. -/
def write (e : Encoding α) (a : α) : List Char := pretty (e.toJson a)

def read (e : Encoding α) (cs : List Char) : Option α := (parse cs).bind e.ofJson

/-- **The text of a value is read back.** -/
theorem read_write (e : Encoding α) (a : α) : e.read (e.write a) = some a := by
  rw [read, write, parse_pretty (e.plain a), Option.bind_some, e.ofJson_toJson]

end Encoding

end Json
