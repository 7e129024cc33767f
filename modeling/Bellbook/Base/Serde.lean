import Bellbook.Base.Hash

/-!
# Serialization of typed values

The shapes `serde` and `serde_json` give to the derived implementations of the crate.

* `Serialize.toValue` is `serde_json::to_value`; `Deserialize.fromValue` is a typed decode of a tree
  that has already been read.
* A struct decodes from an object or, positionally, from an array. In an object a repeated field is
  an error, an absent `Option` is `None`, and an unknown field is an error under
  `deny_unknown_fields`; a field with a default may be absent in both forms (`Fields`).
* An enum is externally tagged; a unit variant is its name, or the one-member object from its name
  to `null` (`UnitEnum`).
* `LawfulSerialize` holds of the types whose canonical text determines the value.
-/

namespace Bellbook

class Serialize (α : Type) where
  toValue : α → Json

class Deserialize (α : Type) where
  fromValue : Json → Option α

export Serialize (toValue)
export Deserialize (fromValue)

/-! ## Primitive types -/

/-- The integer a number token denotes, when it lies in `lo..=hi`. -/
def fromInt (lo hi : Int) : Json → Option Int
  | .number (.int n) => if lo ≤ n ∧ n ≤ hi then some n else none
  | _ => none

instance : Serialize Bool := ⟨.bool⟩

instance : Deserialize Bool where
  fromValue
    | .bool b => some b
    | _ => none

instance : Serialize String := ⟨.string⟩

instance : Deserialize String where
  fromValue
    | .string s => some s
    | _ => none

instance : Serialize Int := ⟨fun n => .number (.int n)⟩
instance : Serialize Nat := ⟨fun n => toValue (n : Int)⟩
instance : Serialize UInt8 := ⟨fun n => toValue n.toNat⟩
instance : Serialize UInt32 := ⟨fun n => toValue n.toNat⟩
instance : Serialize UInt64 := ⟨fun n => toValue n.toNat⟩

instance : Deserialize UInt8 := ⟨fun v => (fromInt 0 255 v).map fun n => UInt8.ofNat n.toNat⟩
instance : Deserialize UInt32 :=
  ⟨fun v => (fromInt 0 4294967295 v).map fun n => UInt32.ofNat n.toNat⟩
instance : Deserialize UInt64 :=
  ⟨fun v => (fromInt 0 18446744073709551615 v).map fun n => UInt64.ofNat n.toNat⟩

/-- Decoding of `i64`. -/
def fromI64 : Json → Option Int := fromInt (-9223372036854775808) 9223372036854775807

section Containers

variable {α β γ δ : Type}

instance [Serialize α] : Serialize (List α) := ⟨fun as => .array (as.map toValue)⟩

instance [Deserialize α] : Deserialize (List α) where
  fromValue
    | .array items => items.mapM fromValue
    | _ => none

instance [Serialize α] : Serialize (Option α) where
  toValue
    | none => .null
    | some a => toValue a

instance [Deserialize α] : Deserialize (Option α) where
  fromValue
    | .null => some none
    | v => (fromValue v).map some

instance : Serialize Hash256 := ⟨fun h => toValue (hashBytes h)⟩

instance : Deserialize Hash256 := ⟨fun v => (fromValue v).bind hashOfBytes⟩

/-! Tuples are arrays. They are written as trees, since a nested pair and a longer tuple are the
same type here and different arrays there. -/

instance : Serialize Json := ⟨id⟩

def tuple2 [Serialize α] [Serialize β] (a : α) (b : β) : Json := .array [toValue a, toValue b]

def tuple3 [Serialize α] [Serialize β] [Serialize γ] (a : α) (b : β) (c : γ) : Json :=
  .array [toValue a, toValue b, toValue c]

def tuple4 [Serialize α] [Serialize β] [Serialize γ] [Serialize δ] (a : α) (b : β) (c : γ)
    (d : δ) : Json :=
  .array [toValue a, toValue b, toValue c, toValue d]

end Containers

mutual
/-- The `serde_json::Value` a tree is decoded to: a later member of one name replaces an earlier
one, and members are kept in name order. -/
def normalize : Json → Json
  | .null => .null
  | .bool b => .bool b
  | .number n => .number n
  | .string s => .string s
  | .array items => .array (normalizeItems items)
  | .object members => .object (normalizeMembers [] members)

def normalizeItems : List Json → List Json
  | [] => []
  | v :: rest => normalize v :: normalizeItems rest

def normalizeMembers (acc : List (String × Json)) : List (String × Json) → List (String × Json)
  | [] => acc
  | (k, v) :: rest =>
    let acc := acc.filter fun m => m.1 ≠ k
    normalizeMembers (acc.takeWhile (fun m => m.1 < k) ++
      (k, normalize v) :: acc.dropWhile (fun m => m.1 < k)) rest
end

/-- `serde_json::Value`. -/
structure Value where
  tree : Json

instance : Serialize Value := ⟨Value.tree⟩
instance : Deserialize Value := ⟨fun v => some ⟨normalize v⟩⟩

/-! ## Derived decoders -/

/-- The fields of a struct under their names, and whether they were given by name. -/
structure Fields where
  byName : Bool
  members : List (String × Json)

/-- The visitor of a derived struct with the given field names. -/
def structFields (denyUnknown : Bool) (names : List String) : Json → Option Fields
  | .object ms =>
    if (denyUnknown → ∀ m ∈ ms, m.1 ∈ names) ∧ ((ms.map Prod.fst).filter (· ∈ names)).Nodup then
      some ⟨true, ms⟩
    else none
  | .array items => if items.length ≤ names.length then some ⟨false, names.zip items⟩ else none
  | _ => none

namespace Fields

variable {α : Type} [Deserialize α]

def required (f : Fields) (name : String) : Option α := (f.members.lookup name).bind fromValue

/-- An `Option` field without `#[serde(default)]`. -/
def optional (f : Fields) (name : String) : Option (Option α) :=
  match f.members.lookup name with
  | some v => fromValue v
  | none => if f.byName then some none else none

/-- A field with `#[serde(default)]`. -/
def defaulted (f : Fields) (name : String) (default : α) : Option α :=
  match f.members.lookup name with
  | some v => fromValue v
  | none => some default

end Fields

/-- `skip_serializing_if = "Option::is_none"`. -/
def skipNone {α : Type} [Serialize α] (name : String) : Option α → List (String × Json)
  | none => []
  | some a => [(name, toValue a)]

/-- The tag of an externally tagged enum, with its content if there is one. -/
def enumTag : Json → Option (String × Option Json)
  | .string s => some (s, none)
  | .object [(tag, content)] => some (tag, some content)
  | _ => none

/-- An enum of unit variants under its wire names. -/
class UnitEnum (α : Type) where
  name : α → String
  variants : List α
  find_name : ∀ a, variants.find? (fun b => name b = name a) = some a

section Enums

variable {α : Type} [UnitEnum α]

/-- The unit variant a tag names. -/
def unitVariant : String × Option Json → Option α
  | (tag, none) | (tag, some .null) => UnitEnum.variants.find? fun a => UnitEnum.name a = tag
  | _ => none

instance : Serialize α := ⟨fun a => .string (UnitEnum.name a)⟩
instance : Deserialize α := ⟨fun v => (enumTag v).bind unitVariant⟩

theorem UnitEnum.name_inj {a b : α} (h : UnitEnum.name a = UnitEnum.name b) : a = b := by
  have hb := UnitEnum.find_name b
  rw [← h, UnitEnum.find_name a] at hb
  exact Option.some.inj hb

theorem fromValue_unitEnum (a : α) : fromValue (toValue a : Json) = some a := by
  simp only [fromValue, toValue, enumTag, unitVariant, Option.bind_some, UnitEnum.find_name]

end Enums

/-! ## Canonical text -/

namespace Platform

variable (P : Platform) {α : Type}

/-- `canonical_json`; `none` where the source returns an error. -/
def canonicalJson [Serialize α] (a : α) : Option Bytes :=
  (writeJcs P.formatFinite (toValue a)).map utf8

/-- `sha256_canonical`. -/
def sha256Canonical [Serialize α] (a : α) : Option Hash256 := (P.canonicalJson a).map P.sha256

/-- `encode`: the canonical bytes of a payload. -/
def encode [Serialize α] (a : α) : Option Bytes := P.canonicalJson a

/-- `decode`: the typed value of payload bytes. -/
def decode (α : Type) [Deserialize α] (data : Bytes) : Option α := (P.readJson data).bind fromValue

end Platform

/-! ## Values determined by their canonical text -/

/-- The tree of a value has no doubles, and up to member order it determines the value. -/
class LawfulSerialize (α : Type) [Serialize α] : Prop where
  floatFree : ∀ a : α, (toValue a).FloatFree
  canon_inj : ∀ {a b : α}, (toValue a).canon = (toValue b).canon → a = b

theorem floatFreeItems_map {α : Type} [Serialize α] [LawfulSerialize α] (as : List α) :
    FloatFreeItems (as.map toValue) := by
  induction as with
  | nil => simp [FloatFreeItems]
  | cons a as ih => exact ⟨LawfulSerialize.floatFree a, ih⟩

theorem canonItems_map_inj {α : Type} [Serialize α] [LawfulSerialize α] {as bs : List α}
    (h : canonItems (as.map toValue) = canonItems (bs.map toValue)) : as = bs := by
  induction as generalizing bs with
  | nil => cases bs with
    | nil => rfl
    | cons b bs => simp [canonItems] at h
  | cons a as ih => cases bs with
    | nil => simp [canonItems] at h
    | cons b bs =>
      simp only [List.map_cons, canonItems, List.cons.injEq] at h
      rw [LawfulSerialize.canon_inj h.1, ih h.2]

instance : LawfulSerialize String where
  floatFree _ := by simp [toValue, Json.FloatFree]
  canon_inj h := by simpa [toValue, Json.canon] using h

instance : LawfulSerialize Nat where
  floatFree _ := by simp [toValue, Json.FloatFree]
  canon_inj h := Int.ofNat_inj.mp (by simpa [toValue, Json.canon] using h)

instance : LawfulSerialize UInt8 where
  floatFree n := LawfulSerialize.floatFree n.toNat
  canon_inj h := UInt8.toNat_inj.mp (LawfulSerialize.canon_inj (α := Nat) h)

instance : LawfulSerialize UInt64 where
  floatFree n := LawfulSerialize.floatFree n.toNat
  canon_inj h := UInt64.toNat_inj.mp (LawfulSerialize.canon_inj (α := Nat) h)

instance {α : Type} [UnitEnum α] : LawfulSerialize α where
  floatFree _ := by simp [toValue, Json.FloatFree]
  canon_inj h := UnitEnum.name_inj (by simpa [toValue, Json.canon] using h)

instance {α : Type} [Serialize α] [LawfulSerialize α] : LawfulSerialize (List α) where
  floatFree as := by simpa [toValue, Json.FloatFree] using floatFreeItems_map as
  canon_inj h := canonItems_map_inj (by simpa [toValue, Json.canon] using h)

instance : LawfulSerialize Hash256 where
  floatFree h := LawfulSerialize.floatFree (hashBytes h)
  canon_inj h := hashBytes_inj (LawfulSerialize.canon_inj (α := Bytes) h)

theorem canonMembers_eq_map (ms : List (String × Json)) :
    canonMembers ms = ms.map fun m => (m.1, m.2.canon) := by
  induction ms with
  | nil => rfl
  | cons m ms ih => obtain ⟨k, v⟩ := m; simp [canonMembers, ih]

theorem map_fst_canonMembers (ms : List (String × Json)) :
    (canonMembers ms).map Prod.fst = ms.map Prod.fst := by
  rw [canonMembers_eq_map, List.map_map]
  rfl

theorem floatFreeMembers_iff {ms : List (String × Json)} :
    FloatFreeMembers ms ↔ ∀ m ∈ ms, m.2.FloatFree := by
  induction ms with
  | nil => simp [FloatFreeMembers]
  | cons m ms ih => rw [FloatFreeMembers, ih, List.forall_mem_cons]

theorem mem_sortMembers {α : Type} {m : String × α} {ms : List (String × α)} :
    m ∈ sortMembers ms ↔ m ∈ ms := List.mem_insertionSort keyLE

/-- Objects that agree up to member order have the same members, up to the order inside them. -/
theorem mem_of_canon_object_eq {ms ns : List (String × Json)}
    (h : (Json.object ms).canon = (Json.object ns).canon) {k : String} {v : Json}
    (hv : (k, v) ∈ ms) : ∃ w, (k, w) ∈ ns ∧ v.canon = w.canon := by
  have hs : sortMembers (canonMembers ms) = sortMembers (canonMembers ns) := by
    simpa [Json.canon] using h
  have hmem : (k, v.canon) ∈ canonMembers ms := by
    rw [canonMembers_eq_map]
    exact List.mem_map.mpr ⟨(k, v), hv, rfl⟩
  rw [← mem_sortMembers, hs, mem_sortMembers, canonMembers_eq_map] at hmem
  obtain ⟨⟨k', w⟩, hw, heq⟩ := List.mem_map.mp hmem
  obtain ⟨rfl, hcanon⟩ := Prod.mk.inj heq
  exact ⟨w, hw, hcanon.symm⟩

/-- Objects that agree up to member order agree on each field they both have. -/
theorem canon_field_eq {ms ns : List (String × Json)}
    (h : (Json.object ms).canon = (Json.object ns).canon) {k : String} {v w : Json}
    (hv : (k, v) ∈ ms) (hw : (k, w) ∈ ns) (hn : (ns.map Prod.fst).Nodup) : v.canon = w.canon := by
  obtain ⟨w', hw', hcanon⟩ := mem_of_canon_object_eq h hv
  have : (k, w') = (k, w) := List.inj_on_of_nodup_map hn hw' hw rfl
  rw [hcanon, (Prod.mk.inj this).2]

/-- Equal canonical bytes are of one text. -/
theorem text_of_canonicalJson_eq (P : Platform) {α β : Type} [Serialize α] [Serialize β] {a : α} {b : β}
    {bytes : Bytes} (ha : P.canonicalJson a = some bytes) (hb : P.canonicalJson b = some bytes) :
    ∃ text, writeJcs P.formatFinite (toValue a) = some text ∧
      writeJcs P.formatFinite (toValue b) = some text := by
  simp only [Platform.canonicalJson, Option.map_eq_some_iff] at ha hb
  obtain ⟨s, hs, rfl⟩ := ha
  obtain ⟨t, ht, htext⟩ := hb
  rw [utf8_inj htext] at ht
  exact ⟨s, hs, ht⟩

/-- `canonical_json` of two lawful values is the same text only for the same value. -/
theorem canonicalJson_inj (P : Platform) {α : Type} [Serialize α] [LawfulSerialize α] {a b : α}
    {bytes : Bytes} (ha : P.canonicalJson a = some bytes) (hb : P.canonicalJson b = some bytes) :
    a = b := by
  obtain ⟨text, hs, ht⟩ := text_of_canonicalJson_eq P ha hb
  exact LawfulSerialize.canon_inj (canon_eq_of_writeJcs_eq (LawfulSerialize.floatFree a)
    (LawfulSerialize.floatFree b) hs ht)

end Bellbook
