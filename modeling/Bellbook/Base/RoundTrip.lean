import Std.Data.ExtTreeMap
import Std.Data.ExtTreeSet
import Mathlib.Data.List.Sort
import Mathlib.Tactic.Ring
import Bellbook.Base.Serde

/-!
# Round trips of the codecs (`base/canonical.rs`)

A type `RoundTrips` when decoding the canonical tree of a value gives the value back.

* The members of a canonical object stand in another order than they were written in. A derived
  struct looks them up by name (`required_canon`), so the order does not matter to it.
* `strictSet`, `strictMap` and `pairMap` are the decoders that refuse repetitions. What they read is
  determined by the entries (`setOf_eq`, `mapOf_eq`), whatever order these are in.
-/

namespace Bellbook

open Std

/-- The canonical tree of a value decodes to the value. -/
class RoundTrips (α : Type) [Serialize α] [Deserialize α] : Prop where
  fromValue_canon : ∀ a : α, fromValue (toValue a).canon = some a

export RoundTrips (fromValue_canon)

/-! ## Primitive types -/

instance : RoundTrips String := ⟨fun _ => by simp [toValue, Json.canon, fromValue]⟩

instance : RoundTrips Bool := ⟨fun _ => by simp [toValue, Json.canon, fromValue]⟩

theorem fromInt_canon {hi n : Nat} (h : n ≤ hi) :
    fromInt 0 hi (toValue n).canon = some (n : Int) := by
  have hn : (n : Int) ≤ (hi : Int) := by exact_mod_cast h
  simp [toValue, Json.canon, fromInt, hn]

instance : RoundTrips UInt8 where
  fromValue_canon n := by
    have h := fromInt_canon (show n.toNat ≤ 255 by have := n.toNat_lt; omega)
    show (fromInt 0 255 (toValue n.toNat).canon).map _ = _
    rw [show (255 : Int) = ((255 : Nat) : Int) from rfl, h]
    simp

instance : RoundTrips UInt32 where
  fromValue_canon n := by
    have h := fromInt_canon (show n.toNat ≤ 4294967295 by have := n.toNat_lt; omega)
    show (fromInt 0 4294967295 (toValue n.toNat).canon).map _ = _
    rw [show (4294967295 : Int) = ((4294967295 : Nat) : Int) from rfl, h]
    simp

instance : RoundTrips UInt64 where
  fromValue_canon n := by
    have h := fromInt_canon (show n.toNat ≤ 18446744073709551615 by have := n.toNat_lt; omega)
    show (fromInt 0 18446744073709551615 (toValue n.toNat).canon).map _ = _
    rw [show (18446744073709551615 : Int) = ((18446744073709551615 : Nat) : Int) from rfl, h]
    simp

instance {α : Type} [UnitEnum α] : RoundTrips α where
  fromValue_canon a := by
    have hcanon : (toValue a : Json).canon = toValue a := by simp [toValue, Json.canon]
    rw [hcanon, fromValue_unitEnum]

/-! ## Lists and digests -/

theorem mapM_eq_some {α β : Type} {f : α → Option β} {g : β → α} (l : List β)
    (h : ∀ b ∈ l, f (g b) = some b) : (l.map g).mapM f = some l := by
  induction l with
  | nil => rfl
  | cons b l ih =>
    rw [List.map_cons, List.mapM_cons, h b List.mem_cons_self,
      ih fun c hc => h c (List.mem_cons_of_mem _ hc)]
    rfl

theorem canonItems_eq_map (items : List Json) : canonItems items = items.map Json.canon := by
  induction items with
  | nil => rfl
  | cons v items ih => rw [canonItems, ih, List.map_cons]

theorem canon_array {α : Type} [Serialize α] (as : List α) :
    (toValue as).canon = .array (as.map fun a => (toValue a).canon) := by
  show (Json.array (as.map toValue)).canon = _
  rw [Json.canon, canonItems_eq_map, List.map_map]
  rfl

instance {α : Type} [Serialize α] [Deserialize α] [RoundTrips α] : RoundTrips (List α) where
  fromValue_canon as := by
    rw [canon_array]
    exact mapM_eq_some as fun a _ => fromValue_canon a

theorem foldl_beBytes (n : Nat) : ∀ acc x, (beBytes n x).foldl (fun acc b => acc * 256 + b.toNat) acc =
    acc * 256 ^ n + x % 256 ^ n := by
  induction n with
  | zero => simp [beBytes, Nat.mod_one]
  | succ n ih =>
    intro acc x
    have hdigit : (UInt8.ofNat (x / 256 ^ n % 256)).toNat = x / 256 ^ n % 256 := by simp
    rw [beBytes, List.foldl_cons, ih, hdigit, Nat.mod_pow_succ, Nat.pow_succ]
    ring

theorem hashOfBytes_hashBytes (h : Hash256) : hashOfBytes (hashBytes h) = some h := by
  rw [hashOfBytes, if_pos (length_hashBytes h), hashBytes, foldl_beBytes, Nat.zero_mul, Nat.zero_add,
    Nat.mod_eq_of_lt (by simpa using h.isLt), BitVec.ofNat_toNat, BitVec.setWidth_eq]

theorem hexPairs_flatMap (bytes : Bytes) :
    hexPairs (bytes.flatMap fun b => [hexChar (b.toNat / 16), hexChar (b.toNat % 16)]) = some bytes := by
  have hnibble : ∀ d < 16, nibble (hexChar d) = some d := by decide
  induction bytes with
  | nil => rfl
  | cons b bytes ih =>
    have hb := b.toNat_lt
    have hbyte : UInt8.ofNat (b.toNat / 16 * 16 + b.toNat % 16) = b := by
      rw [Nat.div_add_mod', UInt8.ofNat_toNat]
    simp only [List.flatMap_cons, List.cons_append, List.nil_append, hexPairs,
      hnibble (b.toNat / 16) (by omega), hnibble (b.toNat % 16) (by omega), Option.bind_some, ih,
      Option.map_some, hbyte]

/-- **`hex_decode` reads what `hex_encode` writes.** -/
theorem hexDecode_hexEncode (h : Hash256) : hexDecode (hexEncode h) = some h := by
  rw [hexDecode, hexEncode, String.toList_ofList, hexPairs_flatMap, Option.bind_some,
    hashOfBytes_hashBytes]

theorem hexEncode_inj {h h' : Hash256} (heq : hexEncode h = hexEncode h') : h = h' := by
  have hread := hexDecode_hexEncode h
  rw [heq, hexDecode_hexEncode] at hread
  exact (Option.some.inj hread).symm

instance : RoundTrips Hash256 where
  fromValue_canon h := by
    show (fromValue (toValue (hashBytes h)).canon).bind hashOfBytes = some h
    rw [fromValue_canon, Option.bind_some, hashOfBytes_hashBytes]

/-- An `Option` whose values are not `null`. -/
theorem fromValue_option {α : Type} [Serialize α] [Deserialize α] [RoundTrips α]
    (hnull : ∀ a : α, (toValue a).canon ≠ .null) (o : Option α) :
    fromValue (toValue o).canon = some o := by
  cases o with
  | none => rfl
  | some a =>
    have h : fromValue (α := Option α) (toValue a).canon = (fromValue (toValue a).canon).map some := by
      cases hv : (toValue a).canon with
      | null => exact (hnull a hv).elim
      | _ => rfl
    show fromValue (α := Option α) (toValue a).canon = _
    rw [h, fromValue_canon]
    rfl

/-! ## Structs -/

section Struct

variable {ms : List (String × Json)} {names : List String} {k : String} {v : Json}

theorem lookup_of_mem {l : List (String × Json)} (hn : (l.map Prod.fst).Nodup) (h : (k, v) ∈ l) :
    l.lookup k = some v := by
  induction l with
  | nil => simp at h
  | cons m l ih =>
    obtain ⟨k', v'⟩ := m
    simp only [List.map_cons, List.nodup_cons] at hn
    rcases List.mem_cons.mp h with heq | hmem
    · cases heq
      simp
    · have hne : k ≠ k' := by
        rintro rfl
        exact hn.1 (List.mem_map.mpr ⟨_, hmem, rfl⟩)
      rw [List.lookup_cons, beq_false_of_ne hne]
      exact ih hn.2 hmem

theorem canon_object (ms : List (String × Json)) :
    (Json.object ms).canon = .object (sortMembers (canonMembers ms)) := rfl

theorem nodup_canon (hn : (ms.map Prod.fst).Nodup) :
    ((sortMembers (canonMembers ms)).map Prod.fst).Nodup := by
  rw [← map_fst_canonMembers] at hn
  exact ((List.perm_insertionSort keyLE (canonMembers ms)).map Prod.fst).nodup_iff.mpr hn

theorem mem_canon (h : (k, v) ∈ ms) : (k, v.canon) ∈ sortMembers (canonMembers ms) := by
  rw [mem_sortMembers, canonMembers_eq_map]
  exact List.mem_map.mpr ⟨_, h, rfl⟩

theorem keys_canon {m : String × Json} (h : m ∈ sortMembers (canonMembers ms)) :
    m.1 ∈ ms.map Prod.fst := by
  rw [mem_sortMembers] at h
  rw [← map_fst_canonMembers]
  exact List.mem_map_of_mem h

/-- The fields of a canonical object, under their names. -/
def canonFields (ms : List (String × Json)) : Fields := ⟨true, sortMembers (canonMembers ms)⟩

theorem structFields_canon (hn : (ms.map Prod.fst).Nodup) (hsub : ms.map Prod.fst ⊆ names) :
    structFields true names (Json.object ms).canon = some (canonFields ms) := by
  rw [canon_object, structFields, if_pos]
  · rfl
  · exact ⟨fun _ m hm => hsub (keys_canon hm), (nodup_canon hn).filter _⟩

variable {α : Type} [Serialize α] [Deserialize α] [RoundTrips α] {a : α}

theorem lookup_canon (hn : (ms.map Prod.fst).Nodup) (h : (k, v) ∈ ms) :
    (canonFields ms).members.lookup k = some v.canon := lookup_of_mem (nodup_canon hn) (mem_canon h)

theorem required_canon (hn : (ms.map Prod.fst).Nodup) (h : (k, toValue a) ∈ ms) :
    (canonFields ms).required k = some a := by
  rw [Fields.required, lookup_canon hn h, Option.bind_some, fromValue_canon]

theorem defaulted_canon (hn : (ms.map Prod.fst).Nodup) (h : (k, toValue a) ∈ ms) (default : α) :
    (canonFields ms).defaulted k default = some a := by
  rw [Fields.defaulted, lookup_canon hn h]
  exact fromValue_canon a

end Struct

/-! ## Sets and maps without repetitions -/

section Maps

variable {α β : Type} [Ord α] [TransOrd α]

/-- Insert an element that is not there yet. -/
def insertNew (s : ExtTreeSet α) (a : α) : Option (ExtTreeSet α) :=
  if a ∈ s then none else some (s.insert a)

/-- The set with these elements, if none is repeated. -/
def setOf (as : List α) : Option (ExtTreeSet α) := as.foldlM insertNew ∅

/-- Insert an entry whose key is not there yet. -/
def insertNewEntry (m : ExtTreeMap α β) (p : α × β) : Option (ExtTreeMap α β) :=
  if p.1 ∈ m then none else some (m.insert p.1 p.2)

/-- The map with these entries, if no key is repeated. -/
def mapOf (ps : List (α × β)) : Option (ExtTreeMap α β) := ps.foldlM insertNewEntry ∅

/-- `strict_set`. -/
def strictSet [Deserialize α] (v : Json) : Option (ExtTreeSet α) :=
  (fromValue v).bind setOf

/-- An entry of a map with string keys. -/
def fromMember (key : String → Option α) (value : Json → Option β) (m : String × Json) :
    Option (α × β) :=
  (key m.1).bind fun k => (value m.2).map fun v => (k, v)

/-- `strict_map`, with the decoders of the keys and the values. -/
def strictMap (key : String → Option α) (value : Json → Option β) : Json → Option (ExtTreeMap α β)
  | .object ms => (ms.mapM (fromMember key value)).bind mapOf
  | _ => none

/-- A `[key, value]` pair. -/
def fromPair [Deserialize α] [Deserialize β] : Json → Option (α × β)
  | .array [k, v] => (fromValue k).bind fun k => (fromValue v).map fun v => (k, v)
  | _ => none

/-- `map_as_pairs`, the decoder. -/
def pairMap [Deserialize α] [Deserialize β] : Json → Option (ExtTreeMap α β)
  | .array items => (items.mapM fromPair).bind mapOf
  | _ => none

theorem nodup_of_insertNew {as : List α} : ∀ {s t : ExtTreeSet α}, as.foldlM insertNew s = some t →
    as.Nodup ∧ ∀ a ∈ as, a ∉ s := by
  induction as with
  | nil => simp
  | cons a as ih =>
    intro s t h
    rw [List.foldlM_cons] at h
    obtain ⟨s', hs', hrest⟩ := Option.bind_eq_some_iff.mp h
    unfold insertNew at hs'
    split at hs'
    · cases hs'
    · next hnew =>
      cases hs'
      obtain ⟨hnodup, hdisj⟩ := ih hrest
      refine ⟨List.nodup_cons.mpr ⟨?_, hnodup⟩, ?_⟩
      · intro ha
        exact hdisj a ha (ExtTreeSet.mem_insert_self)
      · intro b hb
        rcases List.mem_cons.mp hb with rfl | hb
        · exact hnew
        · exact fun hin => hdisj b hb (ExtTreeSet.mem_insert.mpr (.inr hin))

/-- A set that can be read has no member twice. -/
theorem nodup_of_setOf {as : List α} {s : ExtTreeSet α} (h : setOf as = some s) : as.Nodup :=
  (nodup_of_insertNew h).1

theorem nodup_of_insertNewEntry {ps : List (α × β)} : ∀ {m n : ExtTreeMap α β},
    ps.foldlM insertNewEntry m = some n → (ps.map Prod.fst).Nodup ∧ ∀ p ∈ ps, p.1 ∉ m := by
  induction ps with
  | nil => simp
  | cons p ps ih =>
    intro m n h
    rw [List.foldlM_cons] at h
    obtain ⟨m', hm', hrest⟩ := Option.bind_eq_some_iff.mp h
    unfold insertNewEntry at hm'
    split at hm'
    · cases hm'
    · next hnew =>
      cases hm'
      obtain ⟨hnodup, hdisj⟩ := ih hrest
      refine ⟨List.nodup_cons.mpr ⟨?_, hnodup⟩, ?_⟩
      · intro hp
        obtain ⟨q, hq, heq⟩ := List.mem_map.mp hp
        refine hdisj q hq ?_
        rw [heq]
        exact ExtTreeMap.mem_insert_self
      · intro q hq
        rcases List.mem_cons.mp hq with rfl | hq
        · exact hnew
        · exact fun hin => hdisj q hq (ExtTreeMap.mem_insert.mpr (.inr hin))

/-- A map that can be read has no key twice. -/
theorem nodup_of_mapOf {ps : List (α × β)} {m : ExtTreeMap α β} (h : mapOf ps = some m) :
    (ps.map Prod.fst).Nodup :=
  (nodup_of_insertNewEntry h).1

variable [LawfulEqOrd α]

theorem foldlM_insertNew (as : List α) (hn : as.Nodup) :
    ∀ s : ExtTreeSet α, (∀ a ∈ as, a ∉ s) → ∃ t, as.foldlM insertNew s = some t ∧
      ∀ a, a ∈ t ↔ a ∈ s ∨ a ∈ as := by
  induction as with
  | nil => exact fun s _ => ⟨s, rfl, by simp⟩
  | cons b as ih =>
    intro s hs
    rw [List.nodup_cons] at hn
    have hinsert (a : α) : a ∈ s.insert b ↔ b = a ∨ a ∈ s := by
      rw [ExtTreeSet.mem_insert, LawfulEqOrd.compare_eq_iff_eq]
    have hrest : ∀ a ∈ as, a ∉ s.insert b := by
      intro a ha hin
      rcases (hinsert a).mp hin with rfl | hin
      · exact hn.1 ha
      · exact hs a (List.mem_cons_of_mem _ ha) hin
    obtain ⟨t, ht, hmem⟩ := ih hn.2 (s.insert b) hrest
    refine ⟨t, ?_, fun a => ?_⟩
    · rw [List.foldlM_cons, insertNew, if_neg (hs b List.mem_cons_self)]
      exact ht
    · rw [hmem, hinsert, List.mem_cons, eq_comm]
      tauto

/-- The set with these elements, in whatever order they are given. -/
theorem setOf_eq {s : ExtTreeSet α} {as : List α} (h : as.Perm s.toList) : setOf as = some s := by
  have hn : s.toList.Nodup := s.distinct_toList.imp fun hne heq => hne (by
    rw [heq]
    exact ReflCmp.compare_self)
  obtain ⟨t, ht, hmem⟩ := foldlM_insertNew as (h.nodup_iff.mpr hn) ∅ (by simp)
  rw [setOf, ht]
  congr 1
  refine ExtTreeSet.ext_mem fun a => ?_
  rw [hmem, h.mem_iff, ExtTreeSet.mem_toList]
  simp

theorem foldlM_insertNewEntry (ps : List (α × β)) (hn : (ps.map Prod.fst).Nodup) :
    ∀ m : ExtTreeMap α β, (∀ p ∈ ps, p.1 ∉ m) → ∃ t, ps.foldlM insertNewEntry m = some t ∧
      ∀ k v, t[k]? = some v ↔ m[k]? = some v ∨ (k, v) ∈ ps := by
  induction ps with
  | nil => exact fun m _ => ⟨m, rfl, by simp⟩
  | cons p ps ih =>
    intro m hm
    rw [List.map_cons, List.nodup_cons] at hn
    have hp : p.1 ∉ m := hm p List.mem_cons_self
    have hget (k : α) (v : β) : (m.insert p.1 p.2)[k]? = some v ↔ m[k]? = some v ∨ (k, v) = p := by
      rw [ExtTreeMap.getElem?_insert]
      by_cases hk : p.1 = k
      · subst hk
        have hnone : m[p.1]? = none := by simpa using hp
        rw [if_pos ReflCmp.compare_self, hnone]
        simp [Prod.ext_iff, eq_comm]
      · rw [if_neg (fun h => hk (LawfulEqOrd.compare_eq_iff_eq.mp h))]
        simp only [Prod.ext_iff, Ne.symm hk, false_and, or_false]
    have hrest : ∀ q ∈ ps, q.1 ∉ m.insert p.1 p.2 := by
      intro q hq hin
      rcases ExtTreeMap.mem_insert.mp hin with heq | hin
      · exact hn.1 (List.mem_map.mpr ⟨q, hq, (LawfulEqOrd.compare_eq_iff_eq.mp heq).symm⟩)
      · exact hm q (List.mem_cons_of_mem _ hq) hin
    obtain ⟨t, ht, hentries⟩ := ih hn.2 (m.insert p.1 p.2) hrest
    refine ⟨t, ?_, fun k v => ?_⟩
    · rw [List.foldlM_cons, insertNewEntry, if_neg hp]
      exact ht
    · rw [hentries, hget, List.mem_cons]
      tauto

/-- The map with these entries, in whatever order they are given. -/
theorem mapOf_eq {m : ExtTreeMap α β} {ps : List (α × β)} (h : ps.Perm m.toList) :
    mapOf ps = some m := by
  have hn : (m.toList.map Prod.fst).Nodup := by
    refine List.pairwise_map.mpr (m.distinct_keys_toList.imp fun hne heq => hne ?_)
    rw [heq]
    exact ReflCmp.compare_self
  obtain ⟨t, ht, hentries⟩ := foldlM_insertNewEntry ps ((h.map Prod.fst).nodup_iff.mpr hn) ∅ (by simp)
  rw [mapOf, ht]
  congr 1
  refine ExtTreeMap.ext_getElem? fun k => Option.ext fun v => ?_
  rw [hentries, h.mem_iff, ExtTreeMap.mem_toList_iff_getElem?_eq_some]
  simp

/-! ## The strict codecs -/

variable [Serialize α] [Deserialize α] [RoundTrips α]

theorem strictSet_canon (s : ExtTreeSet α) : strictSet (toValue s.toList).canon = some s := by
  rw [strictSet, fromValue_canon, Option.bind_some, setOf_eq (List.Perm.refl _)]

theorem pairMap_canon [Serialize β] [Deserialize β] [RoundTrips β] (m : ExtTreeMap α β) :
    pairMap (toValue (m.toList.map fun p => tuple2 p.1 p.2)).canon = some m := by
  have hpairs : (m.toList.map fun p => (tuple2 p.1 p.2).canon).mapM fromPair = some m.toList := by
    refine mapM_eq_some _ fun p _ => ?_
    have hcanon : (tuple2 p.1 p.2).canon = .array [(toValue p.1).canon, (toValue p.2).canon] := by
      rw [tuple2, Json.canon, canonItems_eq_map]
      rfl
    rw [hcanon]
    simp [fromPair, fromValue_canon]
  rw [canon_array, List.map_map, pairMap]
  show ((m.toList.map fun p => (tuple2 p.1 p.2).canon).mapM fromPair).bind mapOf = _
  rw [hpairs, Option.bind_some, mapOf_eq (List.Perm.refl _)]

omit [Serialize α] [Deserialize α] [RoundTrips α] in
/-- The members of a map are sorted by their names before they are read. -/
theorem strictMap_canon {name : α → String} {key : String → Option α} {encode : β → Json}
    {value : Json → Option β} (hkey : ∀ a, key (name a) = some a)
    (hvalue : ∀ b, value (encode b).canon = some b) (m : ExtTreeMap α β) :
    strictMap key value (Json.object (m.toList.map fun p => (name p.1, encode p.2))).canon = some m := by
  let member : α × β → String × Json := fun p => (name p.1, (encode p.2).canon)
  have hsorted : sortMembers (canonMembers (m.toList.map fun p => (name p.1, encode p.2))) =
      (m.toList.insertionSort fun p q => keyLE (member p) (member q)).map member := by
    rw [canonMembers_eq_map, List.map_map]
    exact (List.map_insertionSort _ _ member m.toList fun _ _ _ _ => Iff.rfl).symm
  have hentries : ((m.toList.insertionSort fun p q => keyLE (member p) (member q)).map member).mapM
      (fromMember key value) = some (m.toList.insertionSort fun p q => keyLE (member p) (member q)) := by
    refine mapM_eq_some _ fun p _ => ?_
    simp [member, fromMember, hkey, hvalue]
  rw [canon_object, hsorted, strictMap, hentries, Option.bind_some,
    mapOf_eq (List.perm_insertionSort _ _)]

end Maps

end Bellbook
