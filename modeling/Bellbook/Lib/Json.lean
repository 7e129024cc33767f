import Mathlib.Algebra.Group.Int.Defs
import Mathlib.Algebra.GroupWithZero.Nat
import Mathlib.Data.List.Sort

/-!
# JSON values and an RFC 8259 reader

A JSON tree, and a reader from text to trees. The reader is structurally recursive on a fuel
argument (the length of the text is always enough), so that it runs inside the kernel.

Number tokens are turned into a `JsonNumber` by the parameter `number`. `numberToken` is the RFC's
grammar, up to how a token becomes a double: a matter of floating point, not of JSON.

An `object` is a plain member list in text order, repeated names included; what a duplicate means
is left to whoever interprets the tree.
-/

namespace Bellbook

abbrev Bytes := List UInt8

/-- A JSON number: an integer, or the bits of a double. -/
inductive JsonNumber where
  | int (n : Int)
  | float (bits : UInt64)
  deriving DecidableEq, Repr

inductive Json where
  | null
  | bool (b : Bool)
  | number (n : JsonNumber)
  | string (s : String)
  | array (items : List Json)
  | object (members : List (String × Json))

/-- UTF-8 bytes of a text. -/
def utf8 (text : List Char) : Bytes := text.flatMap String.utf8EncodeChar

/-- A text is determined by its UTF-8 bytes. -/
theorem utf8_inj {s t : List Char} (h : utf8 s = utf8 t) : s = t := by
  have hb : (String.ofList s).toByteArray = (String.ofList t).toByteArray := by
    simp only [String.toByteArray_ofList, List.utf8Encode]
    exact congrArg List.toByteArray h
  have hs := String.toByteArray_inj.mp hb
  simpa using congrArg String.toList hs

/-- The text of ASCII bytes. -/
def asciiText : Bytes → Option (List Char)
  | [] => some []
  | b :: bytes => if b.toNat < 128 then (asciiText bytes).map (Char.ofNat b.toNat :: ·) else none

/-- The text of UTF-8 bytes. ASCII, the common case, is not decoded any further. -/
def textOfUtf8 (bytes : Bytes) : Option (List Char) :=
  match asciiText bytes with
  | some text => some text
  | none => bytes.toByteArray.utf8Decode?.map Array.toList

theorem utf8_of_asciiText {bytes : Bytes} {text : List Char} (h : asciiText bytes = some text) :
    utf8 text = bytes := by
  have hchar : ∀ n < 128, String.utf8EncodeChar (Char.ofNat n) = [UInt8.ofNat n] := by decide
  induction bytes generalizing text with
  | nil =>
    cases h
    rfl
  | cons b bytes ih =>
    unfold asciiText at h
    split at h
    · next hb =>
      obtain ⟨rest, hrest, rfl⟩ := Option.map_eq_some_iff.mp h
      show String.utf8EncodeChar (Char.ofNat b.toNat) ++ utf8 rest = b :: bytes
      rw [hchar _ hb, ih hrest, UInt8.ofNat_toNat]
      rfl
    · cases h

theorem textOfUtf8_utf8 (text : List Char) : textOfUtf8 (utf8 text) = some text := by
  unfold textOfUtf8
  split
  · next text' h => rw [utf8_inj (utf8_of_asciiText h)]
  · have := List.utf8Decode?_utf8Encode (l := text)
    rw [List.utf8Encode] at this
    rw [utf8, this, Option.map_some]

theorem utf8_of_textOfUtf8 {bytes : Bytes} {text : List Char} (h : textOfUtf8 bytes = some text) :
    utf8 text = bytes := by
  unfold textOfUtf8 at h
  split at h
  · next hascii =>
    cases h
    exact utf8_of_asciiText hascii
  · obtain ⟨chars, hchars, rfl⟩ := Option.map_eq_some_iff.mp h
    have hsome : bytes.toByteArray.utf8Decode?.isSome = true := by
      rw [hchars]
      rfl
    have hencode := ByteArray.utf8Encode_get_utf8Decode? (h := hsome)
    simp only [hchars, Option.get_some, List.utf8Encode] at hencode
    have hbytes := congrArg (fun b => b.data.toList) hencode
    simpa [utf8] using hbytes

namespace JsonText

/-! ## Tokens -/

def isWs (c : Char) : Bool := c = ' ' || c = '\t' || c = '\n' || c = '\r'

def skipWs (cs : List Char) : List Char := cs.dropWhile isWs

/-- The value of a hex digit. -/
def hexDigit (c : Char) : Option Nat :=
  if '0' ≤ c ∧ c ≤ '9' then some (c.toNat - 48)
  else if 'a' ≤ c ∧ c ≤ 'f' then some (c.toNat - 87)
  else if 'A' ≤ c ∧ c ≤ 'F' then some (c.toNat - 55)
  else none

/-- The value of four hex digits. -/
def hexQuad (a b c d : Char) : Option Nat :=
  (hexDigit a).bind fun a => (hexDigit b).bind fun b => (hexDigit c).bind fun c =>
    (hexDigit d).map fun d => a * 4096 + b * 256 + c * 16 + d

def isHighSurrogate (n : Nat) : Bool := 0xD800 ≤ n && n < 0xDC00

def isLowSurrogate (n : Nat) : Bool := 0xDC00 ≤ n && n < 0xE000

/-- The one-character escapes. -/
def simpleEscape : Char → Option Char
  | '"' => some '"'
  | '\\' => some '\\'
  | '/' => some '/'
  | 'b' => some (Char.ofNat 0x08)
  | 'f' => some (Char.ofNat 0x0C)
  | 'n' => some '\n'
  | 'r' => some '\r'
  | 't' => some '\t'
  | _ => none

/-- The rest of a string token, after its opening quote. -/
def readString : List Char → Option (List Char × List Char)
  | [] => none
  | '"' :: rest => some ([], rest)
  | '\\' :: 'u' :: a :: b :: c :: d :: rest =>
    match hexQuad a b c d with
    | none => none
    | some hi =>
      if isHighSurrogate hi then
        -- a high surrogate must be followed by an escaped low one
        match rest with
        | '\\' :: 'u' :: e :: f :: g :: h :: rest' =>
          match hexQuad e f g h with
          | none => none
          | some lo =>
            if isLowSurrogate lo then
              (readString rest').map fun (s, r) =>
                (Char.ofNat (0x10000 + (hi - 0xD800) * 0x400 + (lo - 0xDC00)) :: s, r)
            else none
        | _ => none
      else if isLowSurrogate hi then none
      else (readString rest).map fun (s, r) => (Char.ofNat hi :: s, r)
  | '\\' :: e :: rest =>
    match simpleEscape e with
    | none => none
    | some c => (readString rest).map fun (s, r) => (c :: s, r)
  | c :: rest => if c.toNat < 0x20 then none else (readString rest).map fun (s, r) => (c :: s, r)

/-- Characters a number token is made of. -/
def isNumberChar (c : Char) : Bool := c.isDigit || c = '-' || c = '+' || c = '.' || c = 'e' || c = 'E'

/-! ## Numbers -/

/-- One or more digits. -/
def isDigits (ds : List Char) : Bool := ds ≠ [] && ds.all Char.isDigit

/-- `int`: a zero alone, or digits without a leading zero. -/
def isInt : List Char → Bool
  | ['0'] => true
  | '0' :: _ => false
  | ds => isDigits ds

/-- `[ exp ]`. -/
def isExp : List Char → Bool
  | [] => true
  | e :: '+' :: ds | e :: '-' :: ds => (e = 'e' || e = 'E') && isDigits ds
  | e :: ds => (e = 'e' || e = 'E') && isDigits ds

/-- `[ frac ] [ exp ]`. -/
def isFracExp : List Char → Bool
  | '.' :: rest => isDigits (rest.takeWhile Char.isDigit) && isExp (rest.dropWhile Char.isDigit)
  | rest => isExp rest

def readUnsigned (toDouble : Option UInt64) (negative : Bool) (token : List Char) :
    Option JsonNumber :=
  let int := token.takeWhile Char.isDigit
  let rest := token.dropWhile Char.isDigit
  if isInt int = false then none
  else if rest = [] then
    let n : Int := Nat.ofDigitChars 10 int 0
    some (.int (if negative then -n else n))
  else if isFracExp rest then toDouble.map .float
  else none

/-- The number tokens of RFC 8259, `[ minus ] int [ frac ] [ exp ]`. A token with neither fraction
nor exponent is an integer; the double of any other is `toDouble`'s business. -/
def numberToken (toDouble : List Char → Option UInt64) : List Char → Option JsonNumber
  | '-' :: ds => readUnsigned (toDouble ('-' :: ds)) true ds
  | ds => readUnsigned (toDouble ds) false ds

/-! ## Values -/

section Reader

variable (number : List Char → Option JsonNumber)

def readNumber (cs : List Char) : Option (Json × List Char) :=
  (number (cs.takeWhile isNumberChar)).map fun n => (.number n, cs.dropWhile isNumberChar)

mutual
/-- One value, and the text after it. -/
def readValue : Nat → List Char → Option (Json × List Char)
  | 0, _ => none
  | fuel + 1, cs =>
    match skipWs cs with
    | 'n' :: 'u' :: 'l' :: 'l' :: rest => some (.null, rest)
    | 't' :: 'r' :: 'u' :: 'e' :: rest => some (.bool true, rest)
    | 'f' :: 'a' :: 'l' :: 's' :: 'e' :: rest => some (.bool false, rest)
    | '"' :: rest => (readString rest).map fun (s, r) => (.string (String.ofList s), r)
    | '[' :: rest =>
      match skipWs rest with
      | ']' :: r => some (.array [], r)
      | r => (readItems fuel r).map fun (vs, r) => (.array vs, r)
    | '{' :: rest =>
      match skipWs rest with
      | '}' :: r => some (.object [], r)
      | r => (readMembers fuel r).map fun (ms, r) => (.object ms, r)
    | cs => readNumber number cs

/-- One or more items, through the closing bracket. -/
def readItems : Nat → List Char → Option (List Json × List Char)
  | 0, _ => none
  | fuel + 1, cs =>
    match readValue fuel cs with
    | none => none
    | some (v, rest) =>
      match skipWs rest with
      | ',' :: r => (readItems fuel r).map fun (vs, r) => (v :: vs, r)
      | ']' :: r => some ([v], r)
      | _ => none

/-- One or more members, through the closing brace. -/
def readMembers : Nat → List Char → Option (List (String × Json) × List Char)
  | 0, _ => none
  | fuel + 1, cs =>
    match skipWs cs with
    | '"' :: rest =>
      match readString rest with
      | none => none
      | some (k, rest) =>
        match skipWs rest with
        | ':' :: rest =>
          match readValue fuel rest with
          | none => none
          | some (v, rest) =>
            match skipWs rest with
            | ',' :: r => (readMembers fuel r).map fun (ms, r) => ((String.ofList k, v) :: ms, r)
            | '}' :: r => some ([(String.ofList k, v)], r)
            | _ => none
        | _ => none
    | _ => none
end

/-- A whole JSON text: one value with nothing but whitespace around it. -/
def readText (cs : List Char) : Option Json :=
  match readValue number (cs.length + 1) cs with
  | some (v, rest) => if skipWs rest = [] then some v else none
  | none => none

/-- A JSON text as it travels, in UTF-8. -/
def readBytes (bytes : Bytes) : Option Json := (textOfUtf8 bytes).bind (readText number)

end Reader

end JsonText

end Bellbook
