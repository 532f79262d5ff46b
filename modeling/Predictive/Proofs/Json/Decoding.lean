import Predictive.Json
import Mathlib.Logic.Function.Basic

set_option autoImplicit false

namespace Predictive

namespace Json

/-- The number that a hexadecimal digit stands for. -/
def hexValue (c : Char) : Nat := if c.toNat < 58 then c.toNat - 48 else c.toNat - 87

/-- The first character of the rest of a string, and what follows it; nothing at the closing quote. -/
def readChar : List Char → Option (Char × List Char)
  | [] => none
  | '"' :: _ => none
  | '\\' :: '"' :: rest => some ('"', rest)
  | '\\' :: '\\' :: rest => some ('\\', rest)
  | '\\' :: 'b' :: rest => some ('\x08', rest)
  | '\\' :: 't' :: rest => some ('\t', rest)
  | '\\' :: 'n' :: rest => some ('\n', rest)
  | '\\' :: 'f' :: rest => some ('\x0c', rest)
  | '\\' :: 'r' :: rest => some ('\r', rest)
  | '\\' :: 'u' :: '0' :: '0' :: high :: low :: rest =>
    some (Char.ofNat (16 * hexValue high + hexValue low), rest)
  | c :: rest => some (c, rest)

theorem hexValue_digitChar {n : Nat} (small : n < 16) : hexValue (Nat.digitChar n) = n := by
  have digits : ∀ k < 16, hexValue (Nat.digitChar k) = k := by decide
  exact digits n small

section Codes

variable {α : Type} {encode : α → List Char} {x : α} {l l' : List α} {stop : Char} {r s : List Char}

/-- No code of another value begins the code of `x` or goes on from it. -/
def Told (encode : α → List Char) (x : α) : Prop :=
  ∀ y r s, encode x ++ r = encode y ++ s → x = y ∧ r = s

/-- What stands behind the first part: a comma and the other parts, or nothing. -/
def behindFirst : List (List Char) → List Char
  | [] => []
  | part :: parts => ',' :: [','].intercalate (part :: parts)

theorem intercalate_comma_cons (part : List Char) (parts : List (List Char)) :
    [','].intercalate (part :: parts) = part ++ behindFirst parts := by
  cases parts with
  | nil => simp [behindFirst]
  | cons next parts => simp [behindFirst]

theorem intercalate_append_inj (comma : stop ≠ ',') (each : ∀ x ∈ l, Told encode x)
    (begins : ∀ x, ∃ c text, encode x = c :: text ∧ c ≠ stop)
    (same : [','].intercalate (l.map encode) ++ stop :: r =
      [','].intercalate (l'.map encode) ++ stop :: s) : l = l' ∧ r = s := by
  induction l generalizing l' with
  | nil =>
      cases l' with
      | nil => simpa using same
      | cons y l' =>
          obtain ⟨c, text, code, other⟩ := begins y
          rw [List.map_cons, intercalate_comma_cons, code] at same
          exact absurd (List.head_eq_of_cons_eq same).symm other
  | cons x l ih =>
      obtain ⟨first, others⟩ := List.forall_mem_cons.1 each
      cases l' with
      | nil =>
          obtain ⟨c, text, code, other⟩ := begins x
          rw [List.map_cons, intercalate_comma_cons, code] at same
          exact absurd (List.head_eq_of_cons_eq same) other
      | cons y l' =>
          simp only [List.map_cons, intercalate_comma_cons, List.append_assoc] at same
          obtain ⟨rfl, later⟩ := first _ _ _ same
          -- The lists go on or end alike, since the mark is no comma.
          have rest : [','].intercalate (l.map encode) ++ stop :: r =
              [','].intercalate (l'.map encode) ++ stop :: s := by
            cases l with
            | nil => cases l' with
              | nil => exact later
              | cons => exact absurd (List.head_eq_of_cons_eq later) comma
            | cons => cases l' with
              | nil => exact absurd (List.head_eq_of_cons_eq later).symm comma
              | cons => exact List.tail_eq_of_cons_eq later
          obtain ⟨rfl, behind⟩ := ih others rest
          exact ⟨rfl, behind⟩

end Codes

/-- The first character of a value's text, which tells the kinds of values apart. -/
def opening : Json → Char
  | bool true => 't'
  | bool false => 'f'
  | string _ => '"'
  | array _ => '['
  | object _ => '\x7b'

theorem opening_ne (v : Json) : v.opening ≠ ']' := by
  cases v with
  | bool value => cases value <;> simp [opening]
  | _ => simp [opening]

def valueText (print : Json → String) (v : Json) : List Char := (print v).toList

def fieldText (print : Json → String) (field : String × Json) : List Char :=
  valueText print (.string field.1) ++ ':' :: valueText print field.2

namespace Compact

variable {print : Json → String} {char : Char → String} {r s : List Char}
  (compact : Compact print char)

include compact

theorem readChar_char (c : Char) (rest : List Char) :
    readChar ((char c).toList ++ rest) = some (c, rest) := by
  by_cases low : c.toNat < 0x20
  · by_cases named : c ∈ ['\x08', '\t', '\n', '\x0c', '\r']
    · simp only [List.mem_cons, List.not_mem_nil, or_false] at named
      rcases named with rfl | rfl | rfl | rfl | rfl
      · rw [compact.backspace]; rfl
      · rw [compact.tab]; rfl
      · rw [compact.newline]; rfl
      · rw [compact.formFeed]; rfl
      · rw [compact.carriageReturn]; rfl
    · have high := hexValue_digitChar (n := c.toNat / 16) (by omega)
      have low' := hexValue_digitChar (n := c.toNat % 16) (by omega)
      have code : (char c).toList = '\\' :: 'u' :: '0' :: '0' ::
          [Nat.digitChar (c.toNat / 16), Nat.digitChar (c.toNat % 16)] := by
        simp [compact.control c low named, controlCode]
      simp only [code, List.cons_append, List.nil_append, readChar, high, low', Nat.div_add_mod,
        Char.ofNat_toNat]
  · by_cases named : c ∈ ['"', '\\']
    · simp only [List.mem_cons, List.not_mem_nil, or_false] at named
      rcases named with rfl | rfl
      · rw [compact.quote]; rfl
      · rw [compact.backslash]; rfl
    · have code : (char c).toList = [c] := by simp [compact.raw c (Nat.not_lt.1 low) named]
      simp only [List.mem_cons, List.not_mem_nil, or_false, not_or] at named
      rw [code, List.singleton_append, readChar.eq_def]
      split <;> simp_all

theorem flatMap_char_append_inj {text text' : List Char}
    (same : text.flatMap (fun c => (char c).toList) ++ '"' :: r =
      text'.flatMap (fun c => (char c).toList) ++ '"' :: s) : text = text' ∧ r = s := by
  induction text generalizing text' with
  | nil =>
      cases text' with
      | nil => exact ⟨rfl, List.tail_eq_of_cons_eq same⟩
      | cons d text' =>
          have read := congrArg readChar same
          rw [List.flatMap_cons, List.append_assoc, compact.readChar_char] at read
          contradiction
  | cons c text ih =>
      have read := congrArg readChar same
      rw [List.flatMap_cons, List.append_assoc, compact.readChar_char] at read
      cases text' with
      | nil => contradiction
      | cons d text' =>
          rw [List.flatMap_cons, List.append_assoc, compact.readChar_char] at read
          obtain ⟨rfl, later⟩ := Prod.mk.inj (Option.some.inj read)
          obtain ⟨rfl, behind⟩ := ih later
          exact ⟨rfl, behind⟩

theorem valueText_string (text : String) : valueText print (.string text) =
    '"' :: text.toList.flatMap (fun c => (char c).toList) ++ ['"'] := by
  have quote : "\"".toList = ['"'] := rfl
  rw [valueText, compact.string, String.toList_append, String.toList_append, String.toList_join,
    List.flatMap_map, quote]
  rfl

theorem valueText_array (items : List Json) : valueText print (.array items) =
    '[' :: [','].intercalate (items.map (valueText print)) ++ [']'] := by
  have marks : "[".toList = ['['] ∧ ",".toList = [','] ∧ "]".toList = [']'] := ⟨rfl, rfl, rfl⟩
  rw [valueText, compact.array, String.toList_append, String.toList_append, String.toList_intercalate,
    List.map_map, marks.1, marks.2.1, marks.2.2]
  rfl

theorem valueText_object (fields : List (String × Json)) : valueText print (.object fields) =
    '\x7b' :: [','].intercalate (fields.map (fieldText print)) ++ ['\x7d'] := by
  have marks : "\x7b".toList = ['\x7b'] ∧ ",".toList = [','] ∧ "\x7d".toList = ['\x7d'] :=
    ⟨rfl, rfl, rfl⟩
  have texts : (fields.map fun field => print (.string field.1) ++ ":" ++ print field.2).map
      String.toList = fields.map (fieldText print) := by
    simp [fieldText, valueText]
  rw [valueText, compact.object, String.toList_append, String.toList_append,
    String.toList_intercalate, texts, marks.1, marks.2.1, marks.2.2]
  rfl

theorem exists_valueText_eq_cons (v : Json) : ∃ text, valueText print v = v.opening :: text := by
  cases v with
  | bool value =>
      rw [valueText, compact.bool]
      cases value <;> exact ⟨_, rfl⟩
  | string text => exact ⟨_, compact.valueText_string text⟩
  | array items => exact ⟨_, compact.valueText_array items⟩
  | object fields => exact ⟨_, compact.valueText_object fields⟩

theorem opening_eq {v w : Json} (same : valueText print v ++ r = valueText print w ++ s) :
    v.opening = w.opening := by
  obtain ⟨text, left⟩ := compact.exists_valueText_eq_cons v
  obtain ⟨text', right⟩ := compact.exists_valueText_eq_cons w
  rw [left, right] at same
  exact List.head_eq_of_cons_eq same

theorem told_bool (value : Bool) : Told (valueText print) (.bool value) := by
  intro w r s same
  have kind := compact.opening_eq same
  cases w with
  | bool value' =>
      have equal : value = value' := by
        cases value <;> cases value' <;> first | rfl | exact absurd kind (by decide)
      subst equal
      exact ⟨rfl, List.append_cancel_left same⟩
  | _ => cases value <;> simp [opening] at kind

theorem told_string (text : String) : Told (valueText print) (.string text) := by
  intro w r s same
  have kind := compact.opening_eq same
  cases w with
  | string text' =>
      simp only [compact.valueText_string, List.cons_append, List.append_assoc, List.nil_append] at same
      obtain ⟨told, behind⟩ := compact.flatMap_char_append_inj (List.tail_eq_of_cons_eq same)
      exact ⟨congrArg _ (String.toList_injective told), behind⟩
  | bool value => cases value <;> simp [opening] at kind
  | _ => simp [opening] at kind

theorem told_fieldText {field : String × Json} (value : Told (valueText print) field.2) :
    Told (fieldText print) field := by
  intro field' r s same
  simp only [fieldText, List.append_assoc, List.cons_append] at same
  obtain ⟨name, same⟩ := compact.told_string _ _ _ _ same
  obtain ⟨value, behind⟩ := value _ _ _ (List.tail_eq_of_cons_eq same)
  exact ⟨Prod.ext (Json.string.inj name) value, behind⟩

theorem told_array {items : List Json} (each : ∀ item ∈ items, Told (valueText print) item) :
    Told (valueText print) (.array items) := by
  intro w r s same
  have kind := compact.opening_eq same
  cases w with
  | array items' =>
      simp only [compact.valueText_array, List.cons_append, List.append_assoc, List.nil_append] at same
      have begins (v : Json) : ∃ c text, valueText print v = c :: text ∧ c ≠ ']' := by
        obtain ⟨text, code⟩ := compact.exists_valueText_eq_cons v
        exact ⟨_, text, code, v.opening_ne⟩
      obtain ⟨rfl, behind⟩ := intercalate_append_inj (by decide) each begins
        (List.tail_eq_of_cons_eq same)
      exact ⟨rfl, behind⟩
  | bool value => cases value <;> simp [opening] at kind
  | _ => simp [opening] at kind

theorem told_object {fields : List (String × Json)}
    (each : ∀ field ∈ fields, Told (valueText print) field.2) :
    Told (valueText print) (.object fields) := by
  intro w r s same
  have kind := compact.opening_eq same
  cases w with
  | object fields' =>
      simp only [compact.valueText_object, List.cons_append, List.append_assoc,
        List.nil_append] at same
      have told : ∀ field ∈ fields, Told (fieldText print) field := fun field inside =>
        compact.told_fieldText (each field inside)
      have begins (field : String × Json) :
          ∃ c text, fieldText print field = c :: text ∧ c ≠ '\x7d' := by
        rw [fieldText, compact.valueText_string]
        exact ⟨_, _, rfl, by decide⟩
      obtain ⟨rfl, behind⟩ := intercalate_append_inj (by decide) told begins
        (List.tail_eq_of_cons_eq same)
      exact ⟨rfl, behind⟩
  | bool value => cases value <;> simp [opening] at kind
  | _ => simp [opening] at kind

theorem told (v : Json) : Told (valueText print) v :=
  match v with
  | .bool value => compact.told_bool value
  | .string text => compact.told_string text
  | .array items => compact.told_array fun item inside =>
    have := List.sizeOf_lt_of_mem inside
    told item
  | .object fields => compact.told_object fun field inside =>
    have := List.sizeOf_lt_of_mem inside
    told field.2
termination_by sizeOf v
decreasing_by
  · simp only [Json.array.sizeOf_spec]
    omega
  · have size : sizeOf field = 1 + sizeOf field.1 + sizeOf field.2 := rfl
    simp only [Json.object.sizeOf_spec]
    omega

theorem injective : Function.Injective print := by
  intro v w same
  have texts : valueText print v ++ [] = valueText print w ++ [] := by rw [valueText, same, valueText]
  exact (compact.told v w [] [] texts).1

end Compact

end Json

end Predictive
