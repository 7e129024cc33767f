import Bellbook.Base.Serde

/-!
# Canonical JSON is an encoding

What `write_jcs` promises of its text, on every value without floating-point numbers. A `serde_json`
object is a map: its member names are distinct (`Json.UniqueKeys`), and the order they are stored in
is no part of the value (`Json.Same`).

* The text exists exactly when every integer is in the I-JSON safe range (`writeJcs_isSome_iff`).
* It does not depend on the stored order (`Json.Same.canon_eq`), and its members stand in strictly
  increasing UTF-16 order (`Json.UniqueKeys.canon_ascending`).
* An RFC 8259 reader gets the value back (`readBytes_writeJcs`, `Json.same_canon`).
-/

namespace Bellbook

open JsonText

/-! ## Values as maps -/

mutual
/-- The same value, with the members of its objects stored in another order. -/
inductive Json.Same : Json → Json → Prop
  | null : Json.Same .null .null
  | bool (b : Bool) : Json.Same (.bool b) (.bool b)
  | number (n : JsonNumber) : Json.Same (.number n) (.number n)
  | string (s : String) : Json.Same (.string s) (.string s)
  | array {vs ws : List Json} (h : SameItems vs ws) : Json.Same (.array vs) (.array ws)
  | object {ms ns : List (String × Json)} (h : SameMembers ms ns) : Json.Same (.object ms) (.object ns)

/-- Items keep their places. -/
inductive SameItems : List Json → List Json → Prop
  | nil : SameItems [] []
  | cons {v w : Json} {vs ws : List Json} (h : v.Same w) (hs : SameItems vs ws) :
    SameItems (v :: vs) (w :: ws)

/-- Members are permuted. -/
inductive SameMembers : List (String × Json) → List (String × Json) → Prop
  | nil : SameMembers [] []
  | cons {k : String} {v w : Json} {ms ns : List (String × Json)} (h : v.Same w)
    (hs : SameMembers ms ns) : SameMembers ((k, v) :: ms) ((k, w) :: ns)
  | swap (a b : String × Json) (ms : List (String × Json)) : SameMembers (a :: b :: ms) (b :: a :: ms)
  | trans {ms ns os : List (String × Json)} (h : SameMembers ms ns) (h' : SameMembers ns os) :
    SameMembers ms os
end

mutual
/-- Distinct member names in every object of the value. -/
def Json.UniqueKeys : Json → Prop
  | .null | .bool _ | .number _ | .string _ => True
  | .array items => UniqueKeysItems items
  | .object members => (members.map Prod.fst).Nodup ∧ UniqueKeysMembers members

def UniqueKeysItems : List Json → Prop
  | [] => True
  | v :: rest => v.UniqueKeys ∧ UniqueKeysItems rest

def UniqueKeysMembers : List (String × Json) → Prop
  | [] => True
  | (_, v) :: rest => v.UniqueKeys ∧ UniqueKeysMembers rest
end

mutual
/-- Every integer of the value is within `±(2^53 - 1)`. -/
def Json.SafeIntegers : Json → Prop
  | .null | .bool _ | .string _ | .number (.float _) => True
  | .number (.int n) => -(2 ^ 53 - 1) ≤ n ∧ n ≤ 2 ^ 53 - 1
  | .array items => SafeIntegersItems items
  | .object members => SafeIntegersMembers members

def SafeIntegersItems : List Json → Prop
  | [] => True
  | v :: rest => v.SafeIntegers ∧ SafeIntegersItems rest

def SafeIntegersMembers : List (String × Json) → Prop
  | [] => True
  | (_, v) :: rest => v.SafeIntegers ∧ SafeIntegersMembers rest
end

mutual
/-- The members of every object stand in strictly increasing UTF-16 order of their names. -/
def Json.Ascending : Json → Prop
  | .null | .bool _ | .number _ | .string _ => True
  | .array items => AscendingItems items
  | .object members =>
    members.Pairwise (fun a b => utf16 a.1 < utf16 b.1) ∧ AscendingMembers members

def AscendingItems : List Json → Prop
  | [] => True
  | v :: rest => v.Ascending ∧ AscendingItems rest

def AscendingMembers : List (String × Json) → Prop
  | [] => True
  | (_, v) :: rest => v.Ascending ∧ AscendingMembers rest
end

/-! ## `Same` is an equivalence -/

mutual
theorem Json.Same.refl : ∀ v : Json, v.Same v
  | .null => .null
  | .bool b => .bool b
  | .number n => .number n
  | .string s => .string s
  | .array items => .array (SameItems.refl items)
  | .object members => .object (SameMembers.refl members)

theorem SameItems.refl : ∀ vs : List Json, SameItems vs vs
  | [] => .nil
  | v :: rest => .cons (Json.Same.refl v) (SameItems.refl rest)

theorem SameMembers.refl : ∀ ms : List (String × Json), SameMembers ms ms
  | [] => .nil
  | (_, v) :: rest => .cons (Json.Same.refl v) (SameMembers.refl rest)
end

mutual
theorem Json.Same.symm : ∀ {v w : Json}, v.Same w → w.Same v
  | _, _, .null => .null
  | _, _, .bool b => .bool b
  | _, _, .number n => .number n
  | _, _, .string s => .string s
  | _, _, .array h => .array h.symm
  | _, _, .object h => .object h.symm

theorem SameItems.symm : ∀ {vs ws : List Json}, SameItems vs ws → SameItems ws vs
  | _, _, .nil => .nil
  | _, _, .cons h hs => .cons h.symm hs.symm

theorem SameMembers.symm : ∀ {ms ns : List (String × Json)}, SameMembers ms ns → SameMembers ns ms
  | _, _, .nil => .nil
  | _, _, .cons h hs => .cons h.symm hs.symm
  | _, _, .swap a b ms => .swap b a ms
  | _, _, .trans h h' => .trans h'.symm h.symm
end

mutual
theorem Json.Same.trans : ∀ {u v w : Json}, u.Same v → v.Same w → u.Same w
  | _, _, _, .null, h => h
  | _, _, _, .bool _, h => h
  | _, _, _, .number _, h => h
  | _, _, _, .string _, h => h
  | _, _, _, .array h, .array h' => .array (h.trans h')
  | _, _, _, .object h, .object h' => .object (SameMembers.trans h h')

theorem SameItems.trans : ∀ {us vs ws : List Json}, SameItems us vs → SameItems vs ws → SameItems us ws
  | _, _, _, .nil, .nil => .nil
  | _, _, _, .cons h hs, .cons h' hs' => .cons (h.trans h') (hs.trans hs')
end

theorem SameMembers.of_perm {ms ns : List (String × Json)} (h : ms.Perm ns) : SameMembers ms ns := by
  induction h with
  | nil => exact .nil
  | cons m _ ih => exact .cons (Json.Same.refl m.2) ih
  | swap a b ms => exact .swap b a ms
  | trans _ _ ih ih' => exact .trans ih ih'

mutual
/-- Sorting members does not change the value. -/
theorem Json.same_canon : ∀ v : Json, v.Same v.canon
  | .null => .null
  | .bool b => .bool b
  | .number n => .number n
  | .string s => .string s
  | .array items => .array (sameItems_canon items)
  | .object members =>
    .object ((sameMembers_canon members).trans (.of_perm (List.perm_insertionSort keyLE _).symm))

theorem sameItems_canon : ∀ vs : List Json, SameItems vs (canonItems vs)
  | [] => .nil
  | v :: rest => .cons v.same_canon (sameItems_canon rest)

theorem sameMembers_canon : ∀ ms : List (String × Json), SameMembers ms (canonMembers ms)
  | [] => .nil
  | (_, v) :: rest => .cons v.same_canon (sameMembers_canon rest)
end

/-! ## Names and their order -/

/-- A character is not a surrogate. -/
theorem toNat_not_surrogate (c : Char) : c.toNat < 0xD800 ∨ 0xDFFF < c.toNat := by
  rcases c.valid with h | ⟨h, -⟩
  · exact .inl h
  · exact .inr h

theorem toNat_le_max (c : Char) : c.toNat < 0x110000 := by
  rcases c.valid with h | ⟨-, h⟩
  · exact Nat.lt_trans h (by decide)
  · exact h

/-- The first character of a text is read off its UTF-16 units, and so is what follows it. -/
theorem utf16Char_append_inj {c d : Char} {us vs : List Nat}
    (h : utf16Char c ++ us = utf16Char d ++ vs) : c = d ∧ us = vs := by
  have hc := toNat_not_surrogate c
  have hd := toNat_not_surrogate d
  have hc' := toNat_le_max c
  have hd' := toNat_le_max d
  have key : c.toNat = d.toNat ∧ us = vs := by
    unfold utf16Char at h
    split at h <;> split at h <;>
      simp only [List.cons_append, List.nil_append, List.cons.injEq] at h
    · exact h
    -- a unit of the basic plane is not a high surrogate
    · omega
    · omega
    · exact ⟨by omega, h.2.2⟩
  exact ⟨Char.toNat_inj.mp key.1, key.2⟩

theorem utf16_inj {s t : String} (h : utf16 s = utf16 t) : s = t := by
  have key : ∀ cs ds : List Char, cs.flatMap utf16Char = ds.flatMap utf16Char → cs = ds := by
    intro cs
    induction cs with
    | nil =>
      intro ds hds
      cases ds with
      | nil => rfl
      | cons d ds =>
        unfold List.flatMap utf16Char at hds
        simp only [List.map_nil, List.map_cons, List.flatten_cons, List.flatten_nil] at hds
        split at hds <;> cases hds
    | cons c cs ih =>
      intro ds hds
      cases ds with
      | nil =>
        unfold List.flatMap utf16Char at hds
        simp only [List.map_nil, List.map_cons, List.flatten_cons, List.flatten_nil] at hds
        split at hds <;> cases hds
      | cons d ds =>
        simp only [List.flatMap_cons] at hds
        obtain ⟨rfl, hrest⟩ := utf16Char_append_inj hds
        rw [ih ds hrest]
  exact String.toList_inj.mp (key _ _ h)

instance {α : Type} : Std.Total (keyLE (α := α)) :=
  ⟨fun a b => le_total (utf16 a.1) (utf16 b.1)⟩

instance {α : Type} : IsTrans (String × α) keyLE :=
  ⟨fun _ _ _ hab hbc => le_trans (α := List Nat) hab hbc⟩

theorem keyLE_iff_lt_or_eq {α : Type} {a b : String × α} :
    keyLE a b ↔ utf16 a.1 < utf16 b.1 ∨ a.1 = b.1 := by
  refine le_iff_lt_or_eq.trans (or_congr_right ⟨utf16_inj, ?_⟩)
  intro h
  rw [h]

theorem name_eq_of_keyLE {α : Type} {a b : String × α} (hab : keyLE a b) (hba : keyLE b a) :
    a.1 = b.1 :=
  utf16_inj (le_antisymm (α := List Nat) hab hba)

theorem pairwise_sortMembers {α : Type} (ms : List (String × α)) : (sortMembers ms).Pairwise keyLE :=
  List.pairwise_insertionSort keyLE ms

theorem perm_sortMembers {α : Type} (ms : List (String × α)) : (sortMembers ms).Perm ms :=
  List.perm_insertionSort keyLE ms

/-- Distinct names, in order, are strictly increasing. -/
theorem pairwise_lt_sortMembers {α : Type} {ms : List (String × α)} (h : (ms.map Prod.fst).Nodup) :
    (sortMembers ms).Pairwise fun a b => utf16 a.1 < utf16 b.1 := by
  have hnodup : ((sortMembers ms).map Prod.fst).Nodup := ((perm_sortMembers ms).map _).nodup_iff.mpr h
  have hne : (sortMembers ms).Pairwise fun a b => a.1 ≠ b.1 := List.pairwise_map.mp hnodup
  refine ((pairwise_sortMembers ms).and hne).imp ?_
  rintro a b ⟨hle, hne⟩
  exact (keyLE_iff_lt_or_eq.mp hle).resolve_right hne

/-- With distinct names, the sorted arrangement is the only one. -/
theorem sortMembers_perm {α : Type} {ms ns : List (String × α)} (h : (ms.map Prod.fst).Nodup)
    (hp : ms.Perm ns) : sortMembers ms = sortMembers ns := by
  have hp' : (sortMembers ms).Perm (sortMembers ns) :=
    (perm_sortMembers ms).trans (hp.trans (perm_sortMembers ns).symm)
  refine hp'.eq_of_pairwise ?_ (pairwise_sortMembers ms) (pairwise_sortMembers ns)
  intro a b ha hb hab hba
  have ha' : a ∈ ms := mem_sortMembers.mp ha
  have hb' : b ∈ ms := hp.mem_iff.mpr (mem_sortMembers.mp hb)
  exact List.inj_on_of_nodup_map h ha' hb' (name_eq_of_keyLE hab hba)

/-! ## The stored order does not matter -/

/-- The names of the same members, and their distinctness all the way down. -/
theorem SameMembers.names {ms ns : List (String × Json)} :
    SameMembers ms ns → (ms.map Prod.fst).Perm (ns.map Prod.fst)
  | .nil => .nil
  | .cons _ hs => .cons _ hs.names
  | .swap _ _ _ => .swap _ _ _
  | .trans h h' => h.names.trans h'.names

mutual
theorem Json.Same.uniqueKeys : ∀ {v w : Json}, v.Same w → v.UniqueKeys → w.UniqueKeys
  | _, _, .null, _ => trivial
  | _, _, .bool _, _ => trivial
  | _, _, .number _, _ => trivial
  | _, _, .string _, _ => trivial
  | _, _, .array h, hu => by
    simp only [Json.UniqueKeys] at hu ⊢
    exact h.uniqueKeys hu
  | _, _, .object h, hu => by
    simp only [Json.UniqueKeys] at hu ⊢
    exact ⟨h.names.nodup_iff.mp hu.1, h.uniqueKeys hu.2⟩

theorem SameItems.uniqueKeys : ∀ {vs ws : List Json}, SameItems vs ws → UniqueKeysItems vs →
    UniqueKeysItems ws
  | _, _, .nil, _ => trivial
  | _, _, .cons h hs, hu => ⟨h.uniqueKeys hu.1, hs.uniqueKeys hu.2⟩

theorem SameMembers.uniqueKeys : ∀ {ms ns : List (String × Json)}, SameMembers ms ns →
    UniqueKeysMembers ms → UniqueKeysMembers ns
  | _, _, .nil, _ => trivial
  | _, _, .cons h hs, hu => ⟨h.uniqueKeys hu.1, hs.uniqueKeys hu.2⟩
  | _, _, .swap _ _ _, hu => ⟨hu.2.1, hu.1, hu.2.2⟩
  | _, _, .trans h h', hu => h'.uniqueKeys (h.uniqueKeys hu)
end

mutual
/-- Values that differ in the stored order only have the same canonical form. -/
theorem Json.Same.canon_eq : ∀ {v w : Json}, v.Same w → v.UniqueKeys → v.canon = w.canon
  | _, _, .null, _ => rfl
  | _, _, .bool _, _ => rfl
  | _, _, .number _, _ => rfl
  | _, _, .string _, _ => rfl
  | _, _, .array h, hu => by
    simp only [Json.UniqueKeys] at hu
    simp only [Json.canon, h.canonItems_eq hu]
  | .object ms, _, .object h, hu => by
    simp only [Json.UniqueKeys] at hu
    have hnames : ((canonMembers ms).map Prod.fst).Nodup := by
      rw [map_fst_canonMembers]
      exact hu.1
    simp only [Json.canon, sortMembers_perm hnames (h.canonMembers_perm hu.2)]

theorem SameItems.canonItems_eq : ∀ {vs ws : List Json}, SameItems vs ws → UniqueKeysItems vs →
    canonItems vs = canonItems ws
  | _, _, .nil, _ => rfl
  | _, _, .cons h hs, hu => by simp only [canonItems, h.canon_eq hu.1, hs.canonItems_eq hu.2]

theorem SameMembers.canonMembers_perm : ∀ {ms ns : List (String × Json)}, SameMembers ms ns →
    UniqueKeysMembers ms → (canonMembers ms).Perm (canonMembers ns)
  | _, _, .nil, _ => .nil
  | _, _, .cons h hs, hu => by
    simp only [canonMembers, h.canon_eq hu.1]
    exact (hs.canonMembers_perm hu.2).cons _
  | _, _, .swap _ _ _, _ => .swap _ _ _
  | _, _, .trans h h', hu => (h.canonMembers_perm hu).trans (h'.canonMembers_perm (h.uniqueKeys hu))
end

/-! ## Emitted in order -/

theorem ascendingMembers_iff {ms : List (String × Json)} :
    AscendingMembers ms ↔ ∀ m ∈ ms, m.2.Ascending := by
  induction ms with
  | nil => simp [AscendingMembers]
  | cons m ms ih => simp [AscendingMembers, ih]

mutual
theorem Json.UniqueKeys.canon_ascending : ∀ {v : Json}, v.UniqueKeys → v.canon.Ascending
  | .null, _ | .bool _, _ | .number _, _ | .string _, _ => by simp [Json.canon, Json.Ascending]
  | .array items, h => by
    simp only [Json.UniqueKeys] at h
    simp only [Json.canon, Json.Ascending]
    exact UniqueKeysItems.canon_ascending h
  | .object members, h => by
    simp only [Json.UniqueKeys] at h
    simp only [Json.canon, Json.Ascending]
    constructor
    · apply pairwise_lt_sortMembers
      rw [map_fst_canonMembers]
      exact h.1
    · rw [ascendingMembers_iff]
      intro m hm
      exact ascendingMembers_iff.mp (UniqueKeysMembers.canon_ascending h.2) m (mem_sortMembers.mp hm)

theorem UniqueKeysItems.canon_ascending : ∀ {vs : List Json}, UniqueKeysItems vs →
    AscendingItems (canonItems vs)
  | [], _ => trivial
  | _ :: _, h => ⟨h.1.canon_ascending, UniqueKeysItems.canon_ascending h.2⟩

theorem UniqueKeysMembers.canon_ascending : ∀ {ms : List (String × Json)}, UniqueKeysMembers ms →
    AscendingMembers (canonMembers ms)
  | [], _ => trivial
  | (_, _) :: _, h => ⟨h.1.canon_ascending, UniqueKeysMembers.canon_ascending h.2⟩
end

/-! ## When there is a text -/

section Writer

variable (formatFinite : UInt64 → List Char)

theorem writeNumber_int_isSome (n : Int) :
    (writeNumber formatFinite (.int n)).isSome = true ↔ -(2 ^ 53 - 1) ≤ n ∧ n ≤ 2 ^ 53 - 1 := by
  have hmax : maxSafeInteger = 9007199254740991 := rfl
  simp only [writeNumber]
  split
  · simp only [Option.isSome_some, true_iff]
    omega
  · simp only [Option.isSome_none, Bool.false_eq_true, false_iff]
    omega

mutual
/-- **The writer refuses integers beyond the safe range, and nothing else.** -/
theorem writeJcs_isSome_iff : ∀ {v : Json}, v.FloatFree →
    ((writeJcs formatFinite v).isSome = true ↔ v.SafeIntegers)
  | .null, _ | .bool true, _ | .bool false, _ | .string _, _ => by simp [writeJcs, Json.SafeIntegers]
  | .number (.int n), _ => by
    simp only [writeJcs, Json.SafeIntegers]
    exact writeNumber_int_isSome formatFinite n
  | .number (.float _), h => h.elim
  | .array items, h => by
    simp only [writeJcs, Json.SafeIntegers, Option.isSome_map]
    exact writeItems_isSome_iff h
  | .object members, h => by
    simp only [writeJcs, Json.SafeIntegers, Option.isSome_map]
    exact writeMembers_isSome_iff h

theorem writeItems_isSome_iff : ∀ {vs : List Json}, FloatFreeItems vs →
    ((writeItems formatFinite vs).isSome = true ↔ SafeIntegersItems vs)
  | [], _ => by simp [writeItems, SafeIntegersItems]
  | v :: vs, h => by
    simp only [writeItems, SafeIntegersItems, ← writeJcs_isSome_iff h.1, ← writeItems_isSome_iff h.2]
    cases writeJcs formatFinite v <;> simp

theorem writeMembers_isSome_iff : ∀ {ms : List (String × Json)}, FloatFreeMembers ms →
    ((writeMembers formatFinite ms).isSome = true ↔ SafeIntegersMembers ms)
  | [], _ => by simp [writeMembers, SafeIntegersMembers]
  | (_, v) :: ms, h => by
    simp only [writeMembers, SafeIntegersMembers, ← writeJcs_isSome_iff h.1,
      ← writeMembers_isSome_iff h.2]
    cases writeJcs formatFinite v <;> simp
end

end Writer

/-! ## Reading the text -/

theorem takeWhile_of_all {α : Type} {p : α → Bool} {l : List α} (h : ∀ a ∈ l, p a = true) :
    l.takeWhile p = l ∧ l.dropWhile p = [] := by
  induction l with
  | nil => exact ⟨rfl, rfl⟩
  | cons a l ih =>
    obtain ⟨ht, hd⟩ := ih fun x hx => h x (List.mem_cons_of_mem a hx)
    simp [h a List.mem_cons_self, ht, hd]

/-- The digits of a positive number start with one that is not zero. -/
theorem toDigits_head {n : Nat} (h : 0 < n) :
    ∃ c tail, Nat.toDigits 10 n = c :: tail ∧ c ≠ '0' := by
  induction n using Nat.strong_induction_on with
  | _ n ih =>
    by_cases hn : n < 10
    · refine ⟨n.digitChar, [], Nat.toDigits_of_lt_base hn, ?_⟩
      have hdigit : ∀ m < 10, 0 < m → Nat.digitChar m ≠ '0' := by decide
      exact hdigit n hn h
    · obtain ⟨c, tail, hc, hne⟩ := ih (n / 10) (by omega) (by omega)
      refine ⟨c, tail ++ [Nat.digitChar (n % 10)], ?_, hne⟩
      rw [Nat.toDigits_of_base_le (by decide) (by omega), hc]
      rfl

theorem isInt_toDigits (n : Nat) : isInt (Nat.toDigits 10 n) = true := by
  rcases Nat.eq_zero_or_pos n with rfl | hn
  · rfl
  · obtain ⟨c, tail, hc, hne⟩ := toDigits_head hn
    have hdigits : isDigits (Nat.toDigits 10 n) = true := by
      simp only [isDigits, Bool.and_eq_true, decide_eq_true_eq, List.all_eq_true]
      exact ⟨Nat.toDigits_ne_nil, fun c hc => Nat.isDigit_of_mem_toDigits (by decide) (by decide) hc⟩
    rw [hc] at hdigits ⊢
    unfold isInt
    split
    · rfl
    · next h => cases h; exact absurd rfl hne
    · exact hdigits

theorem readUnsigned_toDigits (d : Option UInt64) (negative : Bool) (n : Nat) :
    readUnsigned d negative (Nat.toDigits 10 n) = some (.int (if negative then -n else n)) := by
  obtain ⟨ht, hd⟩ := takeWhile_of_all (p := Char.isDigit) (l := Nat.toDigits 10 n)
    fun c hc => Nat.isDigit_of_mem_toDigits (by decide) (by decide) hc
  simp [readUnsigned, ht, hd, isInt_toDigits, Nat.ofDigitChars_ten_toDigits]

/-- The grammar reads a decimal as its integer. -/
theorem numberToken_decimal (toDouble : List Char → Option UInt64) (n : Int) :
    numberToken toDouble (decimal n) = some (.int n) := by
  cases n with
  | ofNat n =>
    have hne : ∀ ds, decimal (.ofNat n) ≠ '-' :: ds := by
      intro ds hds
      have hmem : '-' ∈ Nat.toDigits 10 n := by
        rw [show Nat.toDigits 10 n = _ from hds]
        exact List.mem_cons_self
      exact absurd (Nat.isDigit_of_mem_toDigits (by decide) (by decide) hmem) (by decide)
    unfold numberToken
    split
    · next ds hds => exact absurd hds (hne ds)
    · exact readUnsigned_toDigits _ false n
  | negSucc n => exact readUnsigned_toDigits _ true (n + 1)

section ReadBack

variable {formatFinite : UInt64 → List Char} {toDouble : List Char → Option UInt64}

/-- The RFC 8259 reader gets the canonical form back from the bytes. -/
theorem readBytes_writeJcs {v : Json} {text : List Char} (hf : v.FloatFree)
    (h : writeJcs formatFinite v = some text) :
    readBytes (numberToken toDouble) (utf8 text) = some v.canon := by
  rw [readBytes, textOfUtf8_utf8]
  exact readText_writeJcs (fun n _ => numberToken_decimal toDouble n) hf h

/-- **Canonical JSON is a faithful, unique encoding** of values without doubles. -/
theorem canonical_encoding {v : Json} (hf : v.FloatFree) (hu : v.UniqueKeys) :
    ((writeJcs formatFinite v).isSome = true ↔ v.SafeIntegers) ∧
      (∀ w, v.Same w → writeJcs formatFinite w = writeJcs formatFinite v) ∧
      ∀ text, writeJcs formatFinite v = some text →
        (∃ u, readBytes (numberToken toDouble) (utf8 text) = some u ∧ u.Ascending ∧ u.Same v ∧
          writeJcs formatFinite u = some text) ∧
        ∀ w text', w.FloatFree → writeJcs formatFinite w = some text' → utf8 text' = utf8 text →
          w.Same v := by
  have horder : ∀ w, v.Same w → writeJcs formatFinite w = writeJcs formatFinite v := by
    intro w hw
    rw [writeJcs_eq_emit_canon, writeJcs_eq_emit_canon, hw.canon_eq hu]
  refine ⟨writeJcs_isSome_iff formatFinite hf, horder, fun text htext => ⟨?_, ?_⟩⟩
  · refine ⟨v.canon, readBytes_writeJcs hf htext, hu.canon_ascending, v.same_canon.symm, ?_⟩
    rw [horder _ v.same_canon, htext]
  · intro w text' hw htext' hbytes
    rw [utf8_inj hbytes] at htext'
    have hcanon : w.canon = v.canon := canon_eq_of_writeJcs_eq hw hf htext' htext
    exact w.same_canon.trans (hcanon ▸ v.same_canon.symm)

/-- A value whose names are stored in code-point order, which is not the order of UTF-16. -/
def planesValue : Json :=
  .object [("～", .null), ("😀", .array [.number (.int (-1)), .string "\n"])]

/-- Its text: the supplementary-plane name comes first. -/
def planesText : List Char := "\x7b\"😀\":[-1,\"\\n\"],\"～\":null\x7d".toList

theorem planesValue_encoding :
    ∃ u, readBytes (numberToken fun _ => none) (utf8 planesText) = some u ∧ u.Ascending ∧
      u.Same planesValue := by
  have hf : planesValue.FloatFree := by
    simp [planesValue, Json.FloatFree, FloatFreeMembers, FloatFreeItems]
  have hu : planesValue.UniqueKeys := by
    simp [planesValue, Json.UniqueKeys, UniqueKeysMembers, UniqueKeysItems]
  have htext : writeJcs (fun _ => []) planesValue = some planesText := by decide +kernel
  obtain ⟨⟨u, hread, hasc, hsame, -⟩, -⟩ := (canonical_encoding hf hu).2.2 _ htext
  exact ⟨u, hread, hasc, hsame⟩

end ReadBack

end Bellbook
