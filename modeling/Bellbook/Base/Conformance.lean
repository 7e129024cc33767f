import Bellbook.Base.Encoding

/-!
# The independent encoder (`conformance/python/bellbook_conformance.py`)

The repository carries a second, from-scratch encoder: `jcs`, in Python. It looks characters up in an
escape table, and sorts members by the bytes of their names in UTF-16-BE rather than by code units.
`jcs_eq_writeJcs`: on values without doubles it writes what the crate writes, and refuses what the
crate refuses.

A raised `DecodeError` is `none`. Python's `sorted` is stable, and so is the insertion sort here.
-/

namespace Bellbook

/-! ## Strings -/

/-- `_SHORT_ESCAPES`. -/
def shortEscapes : List (Nat × List Char) :=
  [('"'.toNat, ['\\', '"']), ('\\'.toNat, ['\\', '\\']), (0x08, ['\\', 'b']), (0x0C, ['\\', 'f']),
    ('\n'.toNat, ['\\', 'n']), ('\r'.toNat, ['\\', 'r']), ('\t'.toNat, ['\\', 't'])]

/-- `"%04x" % code`: lowercase hex, padded with zeros to four characters. -/
def percent04x (code : Nat) : List Char :=
  let digits := Nat.toDigits 16 code
  List.replicate (4 - digits.length) '0' ++ digits

/-- One step of the loop of `_jcs_string`. -/
def jcsChar (ch : Char) : List Char :=
  match shortEscapes.lookup ch.toNat with
  | some esc => esc
  | none => if ch.toNat < 0x20 then '\\' :: 'u' :: percent04x ch.toNat else [ch]

/-- `_jcs_string`. -/
def jcsString (s : String) : List Char := '"' :: (s.toList.flatMap jcsChar ++ ['"'])

theorem percent04x_eq_hex4 : ∀ code < 0x20, percent04x code = hex4 code := by decide

theorem toNat_ne {c d : Char} (h : c ≠ d) : (c.toNat == d.toNat) = false := by
  rw [beq_eq_false_iff_ne]
  exact fun heq => h (Char.toNat_inj.mp heq)

/-- **The two escape tables agree on every character.** -/
theorem jcsChar_eq_escapeChar (c : Char) : jcsChar c = escapeChar c := by
  unfold escapeChar
  split
  · next h => subst h; rfl
  split
  · next h => subst h; rfl
  split
  · next h => simp [jcsChar, h, shortEscapes, List.lookup_cons]
  split
  · next h => simp [jcsChar, h, shortEscapes, List.lookup_cons]
  split
  · next h => subst h; rfl
  split
  · next h => subst h; rfl
  split
  · next h => subst h; rfl
  -- none of the seven: the table has no entry
  next h1 h2 h3 h4 h5 h6 h7 =>
    have hnone : shortEscapes.lookup c.toNat = none := by
      simp only [shortEscapes, List.lookup_cons, List.lookup_nil, toNat_ne h1, toNat_ne h2, beq_eq_false_iff_ne.mpr h3,
        beq_eq_false_iff_ne.mpr h4, toNat_ne h5, toNat_ne h6, toNat_ne h7]
    simp only [jcsChar, hnone]
    split
    · next hlt => rw [percent04x_eq_hex4 _ hlt]
    · rfl

theorem jcsString_eq_writeString (s : String) : jcsString s = writeString s := by
  have hchar : jcsChar = escapeChar := funext jcsChar_eq_escapeChar
  rw [jcsString, writeString, hchar]

/-! ## Names in UTF-16-BE -/

/-- The two bytes of a code unit, most significant first. -/
def unitBytes (u : Nat) : Bytes := [UInt8.ofNat (u / 256), UInt8.ofNat (u % 256)]

/-- `s.encode("utf-16-be")`. -/
def utf16be (s : String) : Bytes := (utf16 s).flatMap unitBytes

theorem unit_lt (s : String) : ∀ u ∈ utf16 s, u < 0x10000 := by
  intro u hu
  obtain ⟨c, -, hc⟩ := List.mem_flatMap.mp hu
  have hmax := toNat_le_max c
  unfold utf16Char at hc
  split at hc
  · rw [List.mem_singleton.mp hc]
    assumption
  · rcases List.mem_cons.mp hc with rfl | hc
    · omega
    · rw [List.mem_singleton.mp hc]
      omega

theorem ofNat_lt_iff {a b : Nat} (ha : a < 256) (hb : b < 256) : UInt8.ofNat a < UInt8.ofNat b ↔ a < b := by
  rw [UInt8.lt_iff_toNat_lt, UInt8.toNat_ofNat', UInt8.toNat_ofNat', Nat.mod_eq_of_lt ha, Nat.mod_eq_of_lt hb]

theorem ofNat_eq_iff {a b : Nat} (ha : a < 256) (hb : b < 256) : UInt8.ofNat a = UInt8.ofNat b ↔ a = b := by
  rw [← UInt8.toNat_inj, UInt8.toNat_ofNat', UInt8.toNat_ofNat', Nat.mod_eq_of_lt ha, Nat.mod_eq_of_lt hb]

/-- Big-endian bytes order lists of code units as the units do. -/
theorem flatMap_unitBytes_lt_iff : ∀ {us vs : List Nat}, (∀ u ∈ us, u < 0x10000) → (∀ v ∈ vs, v < 0x10000) →
    (us.flatMap unitBytes < vs.flatMap unitBytes ↔ us < vs)
  | [], [], _, _ => by simp
  | [], _ :: _, _, _ => by simp [unitBytes]
  | _ :: _, [], _, _ => by simp [unitBytes]
  | u :: us, v :: vs, hu, hv => by
    have ih : us.flatMap unitBytes < vs.flatMap unitBytes ↔ us < vs := flatMap_unitBytes_lt_iff
      (fun x hx => hu x (List.mem_cons_of_mem _ hx)) fun x hx => hv x (List.mem_cons_of_mem _ hx)
    have hu' := hu u List.mem_cons_self
    have hv' := hv v List.mem_cons_self
    simp only [List.flatMap_cons, unitBytes, List.cons_append, List.nil_append, List.cons_lt_cons_iff]
    rw [ofNat_lt_iff (by omega) (by omega), ofNat_eq_iff (by omega) (by omega),
      ofNat_lt_iff (by omega) (by omega), ofNat_eq_iff (by omega) (by omega), ih]
    constructor
    · rintro (h | ⟨h, h' | ⟨h', hlt⟩⟩)
      · exact .inl (by omega)
      · exact .inl (by omega)
      · exact .inr ⟨by omega, hlt⟩
    · rintro (h | ⟨rfl, hlt⟩)
      · by_cases heq : u / 256 = v / 256
        · exact .inr ⟨heq, .inl (by omega)⟩
        · exact .inl (by omega)
      · exact .inr ⟨rfl, .inr ⟨rfl, hlt⟩⟩

/-- **Sorting by bytes is sorting by code units.** -/
theorem utf16be_le_iff (s t : String) : utf16be s ≤ utf16be t ↔ utf16 s ≤ utf16 t :=
  (not_congr (flatMap_unitBytes_lt_iff (unit_lt t) (unit_lt s))).trans not_lt

/-- The order of `sorted(value.items(), key=lambda kv: kv[0].encode("utf-16-be"))`. -/
def itemLE {α : Type} (a b : String × α) : Prop := utf16be a.1 ≤ utf16be b.1

instance {α : Type} : DecidableRel (itemLE (α := α)) :=
  fun a b => inferInstanceAs (Decidable (utf16be a.1 ≤ utf16be b.1))

/-- `sorted(value.items(), key=...)`. -/
def sortedItems {α : Type} (items : List (String × α)) : List (String × α) := items.insertionSort itemLE

theorem sortedItems_eq_sortMembers {α : Type} (items : List (String × α)) :
    sortedItems items = sortMembers items := by
  have h := List.map_insertionSort (s := keyLE) itemLE id items
    fun a _ b _ => utf16be_le_iff a.1 b.1
  rw [List.map_id, List.map_id] at h
  exact h

/-! ## Values -/

section Jcs

-- `_jcs_float`
variable (jcsFloat : UInt64 → Option (List Char))

mutual
/-- `jcs`. -/
def jcs : Json → Option (List Char)
  | .bool true => some ['t', 'r', 'u', 'e']
  | .bool false => some ['f', 'a', 'l', 's', 'e']
  | .null => some ['n', 'u', 'l', 'l']
  | .number (.int value) =>
    if value > maxSafeInteger ∨ value < -maxSafeInteger then none else some (decimal value)
  | .number (.float value) => jcsFloat value
  | .string value => some (jcsString value)
  | .array value => (jcsItems value).map fun ts => '[' :: (joinComma ts ++ [']'])
  | .object value =>
    (jcsMembers value).map fun ts =>
      '{' :: (joinComma ((sortedItems ts).map fun kv => jcsString kv.1 ++ ':' :: kv.2) ++ ['}'])

def jcsItems : List Json → Option (List (List Char))
  | [] => some []
  | v :: rest => (jcs v).bind fun t => (jcsItems rest).map (t :: ·)

def jcsMembers : List (String × Json) → Option (List (String × List Char))
  | [] => some []
  | (k, v) :: rest => (jcs v).bind fun t => (jcsMembers rest).map ((k, t) :: ·)
end

/-- `canonical_bytes`. -/
def canonicalBytes (v : Json) : Option Bytes := (jcs jcsFloat v).map utf8

variable (formatFinite : UInt64 → List Char)

theorem jcs_int (n : Int) : jcs jcsFloat (.number (.int n)) = writeNumber formatFinite (.int n) := by
  simp only [jcs, writeNumber]
  by_cases h : n.natAbs ≤ maxSafeInteger
  · rw [if_pos h, if_neg (by omega)]
  · rw [if_neg h, if_pos (by omega)]

mutual
/-- **One encoding, two encoders.** -/
theorem jcs_eq_writeJcs : ∀ {v : Json}, v.FloatFree → jcs jcsFloat v = writeJcs formatFinite v
  | .null, _ | .bool true, _ | .bool false, _ => by simp [jcs, writeJcs]
  | .string s, _ => by simp only [jcs, writeJcs, jcsString_eq_writeString]
  | .number (.int n), _ => by
    rw [writeJcs]
    exact jcs_int jcsFloat formatFinite n
  | .number (.float _), h => h.elim
  | .array items, h => by simp only [jcs, writeJcs, jcsItems_eq_writeItems h]
  | .object members, h => by
    have htext : (fun kv : String × List Char => jcsString kv.1 ++ ':' :: kv.2) = memberText := by
      funext kv
      rw [jcsString_eq_writeString, memberText]
    simp only [jcs, writeJcs, jcsMembers_eq_writeMembers h, sortedItems_eq_sortMembers, htext]

theorem jcsItems_eq_writeItems : ∀ {vs : List Json}, FloatFreeItems vs →
    jcsItems jcsFloat vs = writeItems formatFinite vs
  | [], _ => by simp [jcsItems, writeItems]
  | _ :: _, h => by
    simp only [jcsItems, writeItems, jcs_eq_writeJcs h.1, jcsItems_eq_writeItems h.2]

theorem jcsMembers_eq_writeMembers : ∀ {ms : List (String × Json)}, FloatFreeMembers ms →
    jcsMembers jcsFloat ms = writeMembers formatFinite ms
  | [], _ => by simp [jcsMembers, writeMembers]
  | (_, _) :: _, h => by
    simp only [jcsMembers, writeMembers, jcs_eq_writeJcs h.1, jcsMembers_eq_writeMembers h.2]
end

/-- **The crate and the conformance suite write the same bytes.** Both refuse exactly when an integer
is out of the safe range, they order names the same way, and they escape every character alike. -/
theorem encoders_agree {v : Json} (hf : v.FloatFree) :
    canonicalBytes jcsFloat v = (writeJcs formatFinite v).map utf8 ∧
      (canonicalBytes jcsFloat v = none ↔ ¬v.SafeIntegers) ∧
      ((writeJcs formatFinite v).map utf8 = none ↔ ¬v.SafeIntegers) ∧
      (∀ s t, utf16be s ≤ utf16be t ↔ utf16 s ≤ utf16 t) ∧
      ∀ c, jcsChar c = escapeChar c := by
  have hsame : canonicalBytes jcsFloat v = (writeJcs formatFinite v).map utf8 := by
    rw [canonicalBytes, jcs_eq_writeJcs jcsFloat formatFinite hf]
  have hrefuse : (writeJcs formatFinite v).map utf8 = none ↔ ¬v.SafeIntegers := by
    rw [← writeJcs_isSome_iff formatFinite hf, Option.map_eq_none_iff, Option.not_isSome_iff_eq_none]
  exact ⟨hsame, hsame ▸ hrefuse, hrefuse, utf16be_le_iff, jcsChar_eq_escapeChar⟩

end Jcs

/-- Both encoders on a value whose names mix the planes. -/
theorem planesValue_encoders_agree :
    canonicalBytes (fun _ => none) planesValue = (writeJcs (fun _ => []) planesValue).map utf8 :=
  (encoders_agree (fun _ => none) (fun _ => [])
    (by simp [planesValue, Json.FloatFree, FloatFreeMembers, FloatFreeItems])).1

end Bellbook
