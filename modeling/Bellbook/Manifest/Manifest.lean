import Bellbook.Base.RoundTrip
import Bellbook.State.State
import Bellbook.Verify.Reference

/-!
# Canonical manifests (`manifest.rs`)

A manifest is an object from paths to modes and content hashes, and `manifestHash` commits to it. The
loop refuses a path it has seen, so that the object is the map of the entries (`manifestObject_eq_some`,
`manifestObject_eq_none`); the canonical text of that object determines its members whatever order
they come in, and a member determines its entry.
-/

namespace Bellbook

open Std

/-! ## Entries -/

inductive FileMode where
  | regular | executable | symlink | gitlink
  deriving DecidableEq, Repr

/-- `as_str`: the Git mode. -/
def FileMode.asStr : FileMode → String
  | .regular => "100644"
  | .executable => "100755"
  | .symlink => "120000"
  | .gitlink => "160000"

theorem FileMode.asStr_inj {m n : FileMode} (h : m.asStr = n.asStr) : m = n := by
  cases m <;> cases n <;> first | rfl | exact absurd h (by decide)

structure ManifestEntry where
  path : String
  mode : FileMode
  sha256 : Hash256
  deriving DecidableEq

namespace Platform

variable (P : Platform)

/-- `ManifestEntry::file`. -/
def fileEntry (path : String) (executable : Bool) (bytes : Bytes) : ManifestEntry where
  path
  mode := if executable then .executable else .regular
  sha256 := P.sha256 bytes

/-- `ManifestEntry::symlink`. -/
def symlinkEntry (path target : String) : ManifestEntry where
  path
  mode := .symlink
  sha256 := P.sha256Utf8 target

end Platform

/-- 40 or 64 lowercase hex characters. -/
def validOid (oid : String) : Bool :=
  (byteLen oid = 40 || byteLen oid = 64) && oid.toList.all isLowerHexChar

/-- `ManifestEntry::gitlink`. -/
def Platform.gitlinkEntry (P : Platform) (path oid : String) : Option ManifestEntry :=
  if validOid oid then some ⟨path, .gitlink, P.sha256Utf8 oid⟩ else none

/-! ## The hash -/

structure ManifestValue where
  mode : String
  sha256 : String

instance : Serialize ManifestValue where
  toValue v := .object [("mode", toValue v.mode), ("sha256", toValue v.sha256)]

abbrev ManifestObject := ExtTreeMap String ManifestValue

instance : Serialize ManifestObject where
  toValue := mapObject id toValue

def ManifestEntry.value (e : ManifestEntry) : ManifestValue := ⟨e.mode.asStr, hexEncode e.sha256⟩

/-- The loop of `manifest_hash`: a path that is in the object already ends it. -/
def manifestObject (entries : List ManifestEntry) : Option ManifestObject :=
  mapOf (entries.map fun e => (e.path, e.value))

namespace Platform

variable (P : Platform)

/-- The canonical bytes that are hashed. -/
def manifestBytes (entries : List ManifestEntry) : Option Bytes :=
  (manifestObject entries).bind P.canonicalJson

/-- `manifest_hash`. -/
def manifestHash (entries : List ManifestEntry) : Option Hash256 :=
  (manifestObject entries).bind P.sha256Canonical

end Platform

/-! ## The object -/

section Object

variable {entries : List ManifestEntry} {object : ManifestObject}

theorem manifestObject_eq_none :
    manifestObject entries = none ↔ ¬(entries.map ManifestEntry.path).Nodup := by
  have hpaths : (entries.map fun e => (e.path, e.value)).map Prod.fst =
      entries.map ManifestEntry.path := by
    rw [List.map_map]
    rfl
  constructor
  · intro hnone hnodup
    rw [← hpaths] at hnodup
    obtain ⟨object, hobject, -⟩ := foldlM_insertNewEntry _ hnodup ∅ (by simp)
    rw [manifestObject, mapOf, hobject] at hnone
    cases hnone
  · intro hdup
    by_contra hsome
    obtain ⟨object, hobject⟩ := Option.ne_none_iff_exists'.mp hsome
    rw [← hpaths] at hdup
    exact hdup (nodup_of_mapOf hobject)

/-- The object holds exactly the entries. -/
theorem manifestObject_eq_some (h : manifestObject entries = some object) {path : String}
    {value : ManifestValue} :
    (path, value) ∈ object.toList ↔ ∃ e ∈ entries, e.path = path ∧ e.value = value := by
  obtain ⟨object', hobject, hentries⟩ := foldlM_insertNewEntry _ (nodup_of_mapOf h) ∅ (by simp)
  obtain rfl := Option.some.inj (h.symm.trans hobject)
  rw [ExtTreeMap.mem_toList_iff_getElem?_eq_some, hentries]
  simp

/-- The object does not depend on the order of the entries. -/
theorem manifestObject_perm {entries' : List ManifestEntry} (hperm : entries.Perm entries') :
    manifestObject entries = manifestObject entries' := by
  cases hobject : manifestObject entries with
  | none =>
    rw [manifestObject_eq_none, (hperm.map _).nodup_iff] at hobject
    exact (manifestObject_eq_none.mpr hobject).symm
  | some object =>
    cases hobject' : manifestObject entries' with
    | none =>
      rw [manifestObject_eq_none, ← (hperm.map _).nodup_iff, ← manifestObject_eq_none, hobject]
        at hobject'
      cases hobject'
    | some object' =>
      congr 1
      refine ExtTreeMap.ext_getElem? fun path => Option.ext fun value => ?_
      rw [← ExtTreeMap.mem_toList_iff_getElem?_eq_some, ← ExtTreeMap.mem_toList_iff_getElem?_eq_some,
        manifestObject_eq_some hobject, manifestObject_eq_some hobject']
      simp only [hperm.mem_iff]

end Object

/-! ## Its canonical text -/

instance : LawfulSerialize ManifestValue where
  floatFree v := ⟨LawfulSerialize.floatFree v.mode, LawfulSerialize.floatFree v.sha256, trivial⟩
  canon_inj {v w} h := by
    have hmode : v.mode = w.mode := LawfulSerialize.canon_inj
      (canon_field_eq h (k := "mode") (by simp) (by simp) (by simp))
    have hsha : v.sha256 = w.sha256 := LawfulSerialize.canon_inj
      (canon_field_eq h (k := "sha256") (by simp) (by simp) (by simp))
    cases v; cases w
    simp_all

theorem ManifestEntry.eq_of_value {e e' : ManifestEntry} (hpath : e.path = e'.path)
    (hvalue : e.value = e'.value) : e = e' := by
  have hmode := FileMode.asStr_inj (congrArg ManifestValue.mode hvalue)
  have hsha := hexEncode_inj (congrArg ManifestValue.sha256 hvalue)
  cases e; cases e'
  simp_all

variable {P : Platform} {a b : List ManifestEntry} {bytes : Bytes}

/-- An object of strings can be written. -/
theorem canonicalJson_manifestObject (object : ManifestObject) :
    ∃ bytes, P.canonicalJson object = some bytes := by
  rw [← Option.isSome_iff_exists, Platform.canonicalJson, Option.isSome_map]
  show (writeJcs _ (.object _)).isSome = true
  rw [writeJcs_object_isSome]
  intro m hm
  obtain ⟨p, -, rfl⟩ := List.mem_map.mp hm
  show (writeJcs _ (.object [("mode", toValue p.2.mode), ("sha256", toValue p.2.sha256)])).isSome = true
  rw [writeJcs_object_isSome]
  simp [writeJcs_string_isSome]

theorem manifestHash_eq_map (entries : List ManifestEntry) :
    P.manifestHash entries = (P.manifestBytes entries).map P.sha256 := by
  unfold Platform.manifestHash Platform.manifestBytes
  cases manifestObject entries <;> rfl

theorem manifestBytes_eq_none (entries : List ManifestEntry) :
    P.manifestBytes entries = none ↔ ¬(entries.map ManifestEntry.path).Nodup := by
  rw [← manifestObject_eq_none, Platform.manifestBytes]
  cases manifestObject entries with
  | none => simp
  | some object =>
    obtain ⟨bytes, hbytes⟩ := canonicalJson_manifestObject (P := P) object
    simp [hbytes]

/-- What the canonical text of one manifest says, that of another one with the same text says too. -/
theorem mem_of_manifestBytes_eq (ha : P.manifestBytes a = some bytes)
    (hb : P.manifestBytes b = some bytes) {e : ManifestEntry} (he : e ∈ a) : e ∈ b := by
  obtain ⟨objectA, hobjectA, hbytesA⟩ := Option.bind_eq_some_iff.mp ha
  obtain ⟨objectB, hobjectB, hbytesB⟩ := Option.bind_eq_some_iff.mp hb
  obtain ⟨text, htextA, rfl⟩ := Option.map_eq_some_iff.mp hbytesA
  obtain ⟨text', htextB, htext⟩ := Option.map_eq_some_iff.mp hbytesB
  rw [utf8_inj htext] at htextB
  have hfree : ∀ object : ManifestObject, (toValue object).FloatFree :=
    floatFree_mapObject LawfulSerialize.floatFree
  have hcanon := canon_eq_of_writeJcs_eq (hfree objectA) (hfree objectB) htextA htextB
  have hmember : (e.path, toValue e.value) ∈ objectA.toList.map fun p => (id p.1, toValue p.2) :=
    List.mem_map.mpr ⟨(e.path, e.value), (manifestObject_eq_some hobjectA).mpr ⟨e, he, rfl, rfl⟩, rfl⟩
  obtain ⟨w, hw, heq⟩ := mem_of_canon_object_eq hcanon hmember
  obtain ⟨⟨path, value⟩, hpair, hpw⟩ := List.mem_map.mp hw
  obtain ⟨hpath, rfl⟩ := Prod.mk.inj hpw
  obtain ⟨e', he', hpath', hvalue⟩ := (manifestObject_eq_some hobjectB).mp hpair
  have hsame : e = e' := by
    refine ManifestEntry.eq_of_value (hpath.symm.trans hpath'.symm) ?_
    rw [hvalue]
    exact LawfulSerialize.canon_inj heq
  rwa [hsame]

/-- **The hash identifies the manifest.** It is defined unless two entries have the same path, the
order of the entries does not matter, and where SHA-256 does not collide on the two canonical texts
equal hashes are hashes of the same entries. -/
theorem manifestHash_identifies (P : Platform) (a b : List ManifestEntry) :
    (P.manifestHash a = none ↔ ¬(a.map ManifestEntry.path).Nodup) ∧
      (a.Perm b → P.manifestHash a = P.manifestHash b) ∧
      (P.CollisionFree ((P.manifestBytes a).toList ++ (P.manifestBytes b).toList) →
        ∀ hash, P.manifestHash a = some hash → P.manifestHash b = some hash →
          ∀ e, e ∈ a ↔ e ∈ b) := by
  refine ⟨?_, ?_, ?_⟩
  · rw [manifestHash_eq_map, Option.map_eq_none_iff, manifestBytes_eq_none]
  · intro hperm
    rw [Platform.manifestHash, manifestObject_perm hperm, Platform.manifestHash]
  · intro hinj hash hhashA hhashB e
    rw [manifestHash_eq_map] at hhashA hhashB
    obtain ⟨bytesA, hbytesA, rfl⟩ := Option.map_eq_some_iff.mp hhashA
    obtain ⟨bytesB, hbytesB, hsha⟩ := Option.map_eq_some_iff.mp hhashB
    rw [hbytesA, hbytesB] at hinj
    obtain rfl := hinj bytesB (by simp) bytesA (by simp) hsha
    exact ⟨mem_of_manifestBytes_eq hbytesA hbytesB, mem_of_manifestBytes_eq hbytesB hbytesA⟩

/-- The executable bit changes the hash. -/
theorem sampleManifest_mode :
    reference.manifestHash [reference.fileEntry "f" false []] ≠
      reference.manifestHash [reference.fileEntry "f" true []] := by
  intro heq
  obtain ⟨hdefined, -, hsame⟩ := manifestHash_identifies reference
    [reference.fileEntry "f" false []] [reference.fileEntry "f" true []]
  cases hhash : reference.manifestHash [reference.fileEntry "f" false []] with
  | none => exact absurd (hdefined.mp hhash) (by simp)
  | some hash =>
    have hmem := (hsame (by unfold Platform.CollisionFree; decide +kernel) hash hhash (heq ▸ hhash)
      _).mp List.mem_cons_self
    simp [Platform.fileEntry] at hmem

end Bellbook
