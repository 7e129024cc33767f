import Bellbook.Lib.Json
import Mathlib.Data.List.Lex

/-!
# Canonical JSON (`base/canonical.rs`)

Values are turned into a JSON tree and emitted in JSON Canonicalization Scheme form: object
members sorted by the UTF-16 code units of their names, no whitespace, minimal string escaping.
Every record id, approval hash and signature of the ledger is taken over this text.

* `Json` is `serde_json::Value`, and also the raw tree a reader sees before any type is imposed
  on it.
* `writeJcs` is the source's `write_jcs`, producing the text as characters; the bytes are its
  UTF-8 encoding (`utf8`). Printing a double belongs to a library outside the repository
  (`ryu_js`), so it is the parameter `formatFinite`.
* `Json.canon`/`emit` split the writer in two: sort every member list, then print without sorting
  (`writeJcs_eq_emit_canon`). The reader of `Lib/Json` inverts `emit` (`readText_writeJcs`), so the
  canonical text determines the value (`canon_eq_of_writeJcs_eq`).
-/

namespace Bellbook

/-! ## Numbers -/

/-- `MAX_SAFE_INTEGER`: the largest integer magnitude a double represents exactly. -/
def maxSafeInteger : Nat := 9007199254740991

/-- The bits of `MAX_SAFE_INTEGER as f64`. -/
def maxSafeBits : UInt64 := 0x433FFFFFFFFFFFFF

/-- The bits of `INTEGER_LITERAL_LIMIT`, the double `1e21`. -/
def integerLiteralBits : UInt64 := 0x444B1AE4D6E2EF50

/-- The bits of the double's absolute value. Non-negative doubles are ordered as their bits. -/
def absBits (bits : UInt64) : UInt64 := bits &&& 0x7FFFFFFFFFFFFFFF

def isFiniteBits (bits : UInt64) : Bool := absBits bits < 0x7FF0000000000000

/-- Decimal text of an integer. -/
def decimal : Int → List Char
  | .ofNat n => Nat.toDigits 10 n
  | .negSucc n => '-' :: Nat.toDigits 10 (n + 1)

section Writer

variable (formatFinite : UInt64 → List Char)

/-- `write_number`: integers beyond the I-JSON safe range are errors, and so are the doubles that
would print as such an integer. -/
def writeNumber : JsonNumber → Option (List Char)
  | .int n => if n.natAbs ≤ maxSafeInteger then some (decimal n) else none
  | .float bits =>
    if isFiniteBits bits = false then none
    else if absBits bits > maxSafeBits ∧ absBits bits < integerLiteralBits then none
    else some (formatFinite bits)

/-! ## Strings -/

/-- Four lowercase hex digits, for the `\u00xx` escapes. -/
def hex4 (n : Nat) : List Char :=
  [Nat.digitChar (n / 4096 % 16), Nat.digitChar (n / 256 % 16), Nat.digitChar (n / 16 % 16),
    Nat.digitChar (n % 16)]

/-- The escape of one character; everything else is literal. -/
def escapeChar (c : Char) : List Char :=
  if c = '"' then ['\\', '"']
  else if c = '\\' then ['\\', '\\']
  else if c.toNat = 0x08 then ['\\', 'b']
  else if c.toNat = 0x0C then ['\\', 'f']
  else if c = '\n' then ['\\', 'n']
  else if c = '\r' then ['\\', 'r']
  else if c = '\t' then ['\\', 't']
  else if c.toNat < 0x20 then '\\' :: 'u' :: hex4 c.toNat
  else [c]

/-- `write_string`. -/
def writeString (s : String) : List Char :=
  '"' :: (s.toList.flatMap escapeChar ++ ['"'])

/-- UTF-16 code units of one character: supplementary-plane characters are surrogate pairs. -/
def utf16Char (c : Char) : List Nat :=
  if c.toNat < 0x10000 then [c.toNat]
  else [0xD800 + (c.toNat - 0x10000) / 0x400, 0xDC00 + (c.toNat - 0x10000) % 0x400]

/-- `str::encode_utf16`. -/
def utf16 (s : String) : List Nat := s.toList.flatMap utf16Char

/-! ## Arrays and objects -/

/-- The separator discipline of both containers: items separated by single commas. -/
def joinComma : List (List Char) → List Char
  | [] => []
  | [a] => a
  | a :: b :: rest => a ++ ',' :: joinComma (b :: rest)

/-- The order of object members. -/
def keyLE {α : Type} (a b : String × α) : Prop := utf16 a.1 ≤ utf16 b.1

instance {α : Type} : DecidableRel (keyLE (α := α)) :=
  fun a b => inferInstanceAs (Decidable (utf16 a.1 ≤ utf16 b.1))

/-- `keys.sort_by(|a, b| a.encode_utf16().cmp(b.encode_utf16()))`, on members. -/
def sortMembers {α : Type} (ms : List (String × α)) : List (String × α) :=
  ms.insertionSort keyLE

/-- One member: the name, a colon, the value's text. -/
def memberText (m : String × List Char) : List Char := writeString m.1 ++ ':' :: m.2

mutual
/-- `write_jcs`: the canonical text of a value, or `none` where the source returns an error. -/
def writeJcs : Json → Option (List Char)
  | .null => some ['n', 'u', 'l', 'l']
  | .bool true => some ['t', 'r', 'u', 'e']
  | .bool false => some ['f', 'a', 'l', 's', 'e']
  | .number n => writeNumber formatFinite n
  | .string s => some (writeString s)
  | .array items => (writeItems items).map fun ts => '[' :: (joinComma ts ++ [']'])
  | .object members =>
    (writeMembers members).map fun ts => '{' :: (joinComma ((sortMembers ts).map memberText) ++ ['}'])

def writeItems : List Json → Option (List (List Char))
  | [] => some []
  | v :: rest => (writeJcs v).bind fun t => (writeItems rest).map (t :: ·)

def writeMembers : List (String × Json) → Option (List (String × List Char))
  | [] => some []
  | (k, v) :: rest => (writeJcs v).bind fun t => (writeMembers rest).map ((k, t) :: ·)
end

/-! ## Sorting, then printing -/

mutual
/-- Sort every member list of a value. -/
def Json.canon : Json → Json
  | .null => .null
  | .bool b => .bool b
  | .number n => .number n
  | .string s => .string s
  | .array items => .array (canonItems items)
  | .object members => .object (sortMembers (canonMembers members))

def canonItems : List Json → List Json
  | [] => []
  | v :: rest => v.canon :: canonItems rest

def canonMembers : List (String × Json) → List (String × Json)
  | [] => []
  | (k, v) :: rest => (k, v.canon) :: canonMembers rest
end

mutual
/-- The writer without the sorting step. -/
def emit : Json → Option (List Char)
  | .null => some ['n', 'u', 'l', 'l']
  | .bool true => some ['t', 'r', 'u', 'e']
  | .bool false => some ['f', 'a', 'l', 's', 'e']
  | .number n => writeNumber formatFinite n
  | .string s => some (writeString s)
  | .array items => (emitItems items).map fun ts => '[' :: (joinComma ts ++ [']'])
  | .object members =>
    (emitMembers members).map fun ts => '{' :: (joinComma (ts.map memberText) ++ ['}'])

def emitItems : List Json → Option (List (List Char))
  | [] => some []
  | v :: rest => (emit v).bind fun t => (emitItems rest).map (t :: ·)

def emitMembers : List (String × Json) → Option (List (String × List Char))
  | [] => some []
  | (k, v) :: rest => (emit v).bind fun t => (emitMembers rest).map ((k, t) :: ·)
end

theorem emitMembers_orderedInsert (k : String) (v : Json) (ms : List (String × Json)) :
    emitMembers formatFinite (ms.orderedInsert keyLE (k, v)) =
      (emit formatFinite v).bind fun t =>
        (emitMembers formatFinite ms).map fun ts => ts.orderedInsert keyLE (k, t) := by
  induction ms with
  | nil => simp [emitMembers]
  | cons m ms ih =>
    obtain ⟨k', v'⟩ := m
    rw [List.orderedInsert_cons]
    by_cases h : keyLE (k, v) (k', v')
    · rw [if_pos h]
      simp only [emitMembers]
      cases emit formatFinite v with
      | none => rfl
      | some t =>
        cases emit formatFinite v' with
        | none => rfl
        | some t' =>
          have h' : keyLE (k, t) (k', t') := h
          cases emitMembers formatFinite ms <;> simp [List.orderedInsert_cons, h']
    · rw [if_neg h]
      simp only [emitMembers, ih]
      cases emit formatFinite v with
      | none => cases emit formatFinite v' <;> rfl
      | some t =>
        cases emit formatFinite v' with
        | none => rfl
        | some t' =>
          have h' : ¬ keyLE (k, t) (k', t') := h
          cases emitMembers formatFinite ms <;> simp [List.orderedInsert_cons, h']

/-- Sorting members commutes with printing their values: the order looks at names only. -/
theorem emitMembers_sortMembers (ms : List (String × Json)) :
    emitMembers formatFinite (sortMembers ms) =
      (emitMembers formatFinite ms).map sortMembers := by
  induction ms with
  | nil => rfl
  | cons m ms ih =>
    obtain ⟨k, v⟩ := m
    simp only [sortMembers, List.insertionSort_cons] at ih ⊢
    rw [emitMembers_orderedInsert, ih]
    simp only [emitMembers]
    cases emit formatFinite v <;> cases emitMembers formatFinite ms <;> simp [sortMembers]

mutual
theorem writeJcs_eq_emit_canon : ∀ v : Json, writeJcs formatFinite v = emit formatFinite v.canon
  | .null | .bool true | .bool false | .number _ | .string _ => by simp [writeJcs, Json.canon, emit]
  | .array items => by
    simp only [writeJcs, Json.canon, emit, writeItems_eq_emitItems items]
  | .object members => by
    simp only [writeJcs, Json.canon, emit, writeMembers_eq_emitMembers members,
      emitMembers_sortMembers, Option.map_map]
    rfl

theorem writeItems_eq_emitItems : ∀ vs : List Json,
    writeItems formatFinite vs = emitItems formatFinite (canonItems vs)
  | [] => by simp [writeItems, canonItems, emitItems]
  | v :: rest => by
    simp only [writeItems, canonItems, emitItems, writeJcs_eq_emit_canon v,
      writeItems_eq_emitItems rest]

theorem writeMembers_eq_emitMembers : ∀ ms : List (String × Json),
    writeMembers formatFinite ms = emitMembers formatFinite (canonMembers ms)
  | [] => by simp [writeMembers, canonMembers, emitMembers]
  | (k, v) :: rest => by
    simp only [writeMembers, canonMembers, emitMembers, writeJcs_eq_emit_canon v,
      writeMembers_eq_emitMembers rest]
end

end Writer

end Bellbook
