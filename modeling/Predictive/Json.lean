set_option autoImplicit false

namespace Predictive

inductive Json where
  | bool (value : Bool)
  | string (text : String)
  | array (items : List Json)
  | object (fields : List (String × Json))

namespace Json

/-- A control character by its two hexadecimal digits. -/
def controlCode (c : Char) : String :=
  "\\u00" ++ String.ofList [Nat.digitChar (c.toNat / 16), Nat.digitChar (c.toNat % 16)]

/-- What a function has to do that prints values, where `char` writes a character inside a string. It
comes from another library; its texts are compact, with the fields in the order in which they are held
and no more characters escaped than need be. -/
structure Compact (print : Json → String) (char : Char → String) : Prop where
  bool : ∀ value : Bool, print (.bool value) = if value then "true" else "false"
  string : ∀ text : String,
    print (.string text) = "\"" ++ String.join (text.toList.map char) ++ "\""
  array : ∀ items : List Json, print (.array items) = "[" ++ ",".intercalate (items.map print) ++ "]"
  object : ∀ fields : List (String × Json), print (.object fields) =
    "\x7b" ++ ",".intercalate (fields.map fun field =>
      print (.string field.1) ++ ":" ++ print field.2) ++ "\x7d"
  quote : char '"' = "\\\""
  backslash : char '\\' = "\\\\"
  backspace : char '\x08' = "\\b"
  tab : char '\t' = "\\t"
  newline : char '\n' = "\\n"
  formFeed : char '\x0c' = "\\f"
  carriageReturn : char '\r' = "\\r"
  control : ∀ c : Char, c.toNat < 0x20 → c ∉ ['\x08', '\t', '\n', '\x0c', '\r'] →
    char c = controlCode c
  raw : ∀ c : Char, 0x20 ≤ c.toNat → c ∉ ['"', '\\'] → char c = c.toString

/-- A character inside a string. -/
def escapeChar (c : Char) : String :=
  match c with
  | '"' => "\\\""
  | '\\' => "\\\\"
  | '\x08' => "\\b"
  | '\t' => "\\t"
  | '\n' => "\\n"
  | '\x0c' => "\\f"
  | '\r' => "\\r"
  | c => if c.toNat < 0x20 then controlCode c else c.toString

/-- A text in quotes. -/
def quoted (text : String) : String := "\"" ++ String.join (text.toList.map escapeChar) ++ "\""

mutual

/-- The function that the program is run with. -/
def render : Json → String
  | bool value => if value then "true" else "false"
  | string text => quoted text
  | array items => "[" ++ ",".intercalate (renderItems items) ++ "]"
  | object fields => "\x7b" ++ ",".intercalate (renderFields fields) ++ "\x7d"

def renderItems : List Json → List String
  | [] => []
  | item :: rest => render item :: renderItems rest

def renderFields : List (String × Json) → List String
  | [] => []
  | (name, value) :: rest => (quoted name ++ ":" ++ render value) :: renderFields rest

end

theorem renderItems_eq (items : List Json) : renderItems items = items.map render := by
  induction items with
  | nil => rfl
  | cons item rest ih => rw [renderItems, ih, List.map_cons]

theorem renderFields_eq (fields : List (String × Json)) : renderFields fields =
    fields.map fun field => render (.string field.1) ++ ":" ++ render field.2 := by
  induction fields with
  | nil => rfl
  | cons field rest ih => rw [renderFields, ih, List.map_cons, render]

theorem compact_render : Compact render escapeChar where
  bool _ := by rw [render]
  string _ := by rw [render, quoted]
  array items := by rw [render, renderItems_eq]
  object fields := by rw [render, renderFields_eq]
  quote := rfl
  backslash := rfl
  backspace := rfl
  tab := rfl
  newline := rfl
  formFeed := rfl
  carriageReturn := rfl
  control c low unnamed := by
    have quote : c ≠ '"' := fun same => absurd low (same ▸ by decide)
    have backslash : c ≠ '\\' := fun same => absurd low (same ▸ by decide)
    unfold escapeChar
    split <;> simp_all
  raw c high other := by
    unfold escapeChar
    split
    case h_8 => rw [if_neg (Nat.not_lt.2 high)]
    all_goals simp_all

/-- Puts a field before the first one with a greater name. -/
def insertField (field : String × Json) : List (String × Json) → List (String × Json)
  | [] => [field]
  | other :: rest =>
    if compare field.1 other.1 = .gt then other :: insertField field rest
    else field :: other :: rest

mutual

/-- The same value with the fields of every object in increasing order of their names. -/
def sortFields : Json → Json
  | bool value => bool value
  | string text => string text
  | array items => array (sortItems items)
  | object fields => object (sortObject fields)

def sortItems : List Json → List Json
  | [] => []
  | item :: rest => sortFields item :: sortItems rest

def sortObject : List (String × Json) → List (String × Json)
  | [] => []
  | (name, value) :: rest => insertField (name, sortFields value) (sortObject rest)

end

end Json

end Predictive
