import Bellbook.Verify.Reference

/-!
# What is signed and what is hashed

A record is written in two canonical forms, the one its signature is over and the one its id is the
hash of; an approval is for the hash of a third, and the approval of a Selection of a fourth.

* The signing form is the id form of the record without its signature (`signingForm_eq`), so both
  bind what they hold by one lemma.
* The forms cannot be confused: two are objects and two are arrays, the signing envelope has a
  member the id form lacks, and the tuples differ in what follows their first string.
-/

namespace Bellbook

/-- The record under another signature, or under none. -/
def Record.withSignature (r : Record) (signature : Option Signature) : Record :=
  { r with author := { r.author with signature := signature } }

/-- The record without its signature. -/
def Record.unsigned (r : Record) : Record := r.withSignature none

variable {P : Platform} {r r' : Record}

/-! ## What the forms bind -/

/-- Absence is left out of the id form, and is all that is left out of the signing form. -/
theorem signingForm_eq (r : Record) : signingForm r = idForm r.unsigned := rfl

theorem canonicalIdForm_congr (h : r.SameContent r') : P.canonicalIdForm r = P.canonicalIdForm r' := by
  have hform : idForm { r with id := 0 } = idForm { r' with id := 0 } := congrArg idForm h
  exact congrArg P.canonicalJson hform

theorem signingBytes_congr (h : r.unsigned.SameContent r'.unsigned) :
    P.signingBytes r = P.signingBytes r' := by
  have hform : idForm { r.unsigned with id := 0 } = idForm { r'.unsigned with id := 0 } :=
    congrArg idForm h
  have hsigning : signingForm r = signingForm r' := hform
  rw [Platform.signingBytes, Platform.signingBytes, hsigning]

theorem floatFree_envelope (r : Record) : (Json.object
    [("domain", toValue recordSignatureDomain), ("record", signingForm r)]).FloatFree :=
  ⟨LawfulSerialize.floatFree recordSignatureDomain, floatFree_idForm r.unsigned, trivial⟩

/-- **The signing form binds** everything but the id and the signature. -/
theorem sameContent_of_signingBytes_eq {bytes : Bytes} (h : P.signingBytes r = some bytes)
    (h' : P.signingBytes r' = some bytes) : r.unsigned.SameContent r'.unsigned := by
  obtain ⟨text, hs, ht⟩ := text_of_canonicalJson_eq P h h'
  have hcanon := canon_eq_of_writeJcs_eq (floatFree_envelope r) (floatFree_envelope r') hs ht
  have hrecord : (signingForm r).canon = (signingForm r').canon :=
    canon_field_eq hcanon (k := "record") (by simp) (by simp) (by simp)
  rw [signingForm_eq, signingForm_eq] at hrecord
  exact sameContent_of_canon_eq hrecord

theorem signingBytes_eq_iff {bytes bytes' : Bytes} (h : P.signingBytes r = some bytes)
    (h' : P.signingBytes r' = some bytes') : bytes = bytes' ↔ r.unsigned.SameContent r'.unsigned := by
  constructor
  · rintro rfl
    exact sameContent_of_signingBytes_eq h h'
  · intro hsame
    rw [signingBytes_congr hsame, h'] at h
    exact (Option.some.inj h).symm

theorem canonicalIdForm_eq_iff {form form' : Bytes} (h : P.canonicalIdForm r = some form)
    (h' : P.canonicalIdForm r' = some form') : form = form' ↔ r.SameContent r' := by
  constructor
  · rintro rfl
    exact sameContent_of_idForm_eq P h h'
  · intro hsame
    rw [canonicalIdForm_congr hsame, h'] at h
    exact (Option.some.inj h).symm

theorem signature_eq_of_sameContent {signature : Option Signature}
    (h : r.SameContent (r.withSignature signature)) : signature = r.author.signature := by
  have hauthor := congrArg (fun x : Record => x.author.signature) h
  exact hauthor.symm

/-! ## What sets the forms apart -/

theorem writeJcs_object_head {f : UInt64 → List Char} {ms : List (String × Json)} {text : List Char}
    (h : writeJcs f (.object ms) = some text) : ∃ rest, text = '{' :: rest := by
  obtain ⟨ts, -, rfl⟩ := Option.map_eq_some_iff.mp (writeJcs.eq_def f (.object ms) ▸ h)
  exact ⟨_, rfl⟩

theorem writeJcs_array_head {f : UInt64 → List Char} {vs : List Json} {text : List Char}
    (h : writeJcs f (.array vs) = some text) : ∃ rest, text = '[' :: rest := by
  obtain ⟨ts, -, rfl⟩ := Option.map_eq_some_iff.mp (writeJcs.eq_def f (.array vs) ▸ h)
  exact ⟨_, rfl⟩

/-- The text of an array that starts with a string, up to the text of its second item. -/
theorem writeJcs_array_string {f : UInt64 → List Char} {s : String} {v : Json} {vs : List Json}
    {text : List Char} (h : writeJcs f (.array (.string s :: v :: vs)) = some text) :
    ∃ second rest, writeJcs f v = some second ∧
      text = '[' :: (writeString s ++ ',' :: (second ++ rest)) := by
  simp only [writeJcs, writeItems, Option.bind_some, Option.map_map, Option.map_eq_some_iff,
    Option.bind_eq_some_iff] at h
  obtain ⟨ts, ⟨second, hsecond, items, hitems, rfl⟩, rfl⟩ := h
  refine ⟨second, ?_⟩
  cases items with
  | nil => exact ⟨[']'], hsecond, by simp [joinComma]⟩
  | cons t ts => exact ⟨',' :: (joinComma (t :: ts) ++ [']']), hsecond, by simp [joinComma]⟩

theorem signingBytes_ne_idForm {bytes : Bytes} (h : P.signingBytes r = some bytes) :
    P.canonicalIdForm r' ≠ some bytes := by
  intro h'
  obtain ⟨text, hs, ht⟩ := text_of_canonicalJson_eq P h h'
  have hcanon := canon_eq_of_writeJcs_eq (floatFree_envelope r) (floatFree_idForm r') hs ht
  obtain ⟨w, hw, -⟩ := mem_of_canon_object_eq hcanon (k := "domain") List.mem_cons_self
  simp at hw

/-- The signing envelope is an object, so it is no tuple. -/
theorem signingBytes_ne_array {bytes : Bytes} {vs : List Json} (h : P.signingBytes r = some bytes) :
    P.canonicalJson (Json.array vs) ≠ some bytes := by
  intro h'
  obtain ⟨text, hs, ht⟩ := text_of_canonicalJson_eq P h h'
  obtain ⟨rest, rfl⟩ := writeJcs_object_head hs
  obtain ⟨rest', hrest⟩ := writeJcs_array_head ht
  cases hrest

/-- The tuple of an Action goes on with an object, and the one of a Selection with a string. The
payload of the Action may hold doubles, of which nothing is known here but where their text stands. -/
theorem actionTuple_ne_selectionTuple {author author' : ActorId} {target : Option RecordId}
    {action : ActionData} {selection : SelectionData} {bytes : Bytes}
    (h : P.canonicalJson (tuple2 author action) = some bytes) :
    P.canonicalJson (tuple4 selectionApprovalDomain author' target selection) ≠ some bytes := by
  intro h'
  obtain ⟨text, hs, ht⟩ := text_of_canonicalJson_eq P h h'
  obtain ⟨second, rest, hsecond, rfl⟩ := writeJcs_array_string hs
  obtain ⟨second', rest', hsecond', htext⟩ := writeJcs_array_string ht
  obtain ⟨tail, rfl⟩ := writeJcs_object_head hsecond
  obtain rfl : writeString author' = second' := Option.some.inj hsecond'
  obtain ⟨-, htail⟩ := writeString_append_inj (List.cons.inj htext).2
  cases (List.cons.inj htail).2

/-! ## The four forms -/

/-- **The forms bind what they hold, and cannot be confused.** The signing bytes determine everything
but the id and the signature, and the id form everything but the id; so another signature is another
id, unless two byte strings collide. The signing bytes are never an id form nor the tuple of an
approval, and the tuples of the two kinds of approval never coincide. -/
theorem forms_bind_and_differ (P : Platform) (r r' : Record) :
    (∀ bytes bytes', P.signingBytes r = some bytes → P.signingBytes r' = some bytes' →
        (bytes = bytes' ↔ r.unsigned.SameContent r'.unsigned)) ∧
      (∀ form form', P.canonicalIdForm r = some form → P.canonicalIdForm r' = some form' →
        (form = form' ↔ r.SameContent r')) ∧
      (∀ signature form form', signature ≠ r.author.signature → P.canonicalIdForm r = some form →
        P.canonicalIdForm (r.withSignature signature) = some form' → form ≠ form' ∧
          (P.CollisionFree [form, form'] → P.computeId r ≠ P.computeId (r.withSignature signature))) ∧
      (∀ bytes, P.signingBytes r = some bytes → P.canonicalIdForm r' ≠ some bytes ∧
        (∀ (author : ActorId) (action : ActionData),
          P.canonicalJson (tuple2 author action) ≠ some bytes) ∧
        ∀ (author : ActorId) (target : Option RecordId) (selection : SelectionData),
          P.canonicalJson (tuple4 selectionApprovalDomain author target selection) ≠ some bytes) ∧
      ∀ (author author' : ActorId) (target : Option RecordId) (action : ActionData)
        (selection : SelectionData) (bytes : Bytes),
        P.canonicalJson (tuple2 author action) = some bytes →
          P.canonicalJson (tuple4 selectionApprovalDomain author' target selection) ≠ some bytes := by
  refine ⟨fun _ _ => signingBytes_eq_iff, fun _ _ => canonicalIdForm_eq_iff, ?_, ?_, ?_⟩
  · intro signature form form' hne h h'
    have hdiffer : form ≠ form' := fun heq =>
      hne (signature_eq_of_sameContent ((canonicalIdForm_eq_iff h h').mp heq))
    refine ⟨hdiffer, fun hfree hids => hdiffer ?_⟩
    rw [Platform.computeId, Platform.computeId, h, h'] at hids
    exact hfree form (by simp) form' (by simp) (Option.some.inj hids)
  · intro bytes h
    exact ⟨signingBytes_ne_idForm h, fun _ _ => signingBytes_ne_array h,
      fun _ _ _ => signingBytes_ne_array h⟩
  · intro author author' target action selection bytes h
    exact actionTuple_ne_selectionTuple h

def sampleSignature : Signature := ⟨hexEncode 5, List.replicate 64 0⟩

/-- The sample request has one signing form with and without a signature, and two ids. -/
theorem sampleRequest_signed : ∃ bytes form, reference.signingBytes sampleRequest = some bytes ∧
    reference.canonicalIdForm sampleRequest = some form ∧ bytes ≠ form ∧
    reference.signingBytes (sampleRequest.withSignature (some sampleSignature)) = some bytes ∧
    reference.computeId sampleRequest ≠
      reference.computeId (sampleRequest.withSignature (some sampleSignature)) := by
  obtain ⟨s, hv⟩ := accepts_iff.mp sampleRound_accepts
  have hid : reference.computeId sampleRequest = some sampleRequest.id :=
    hv.ids sampleRequest List.mem_cons_self
  obtain ⟨form, hform, -⟩ := Option.map_eq_some_iff.mp hid
  have hsigning : (reference.signingBytes sampleRequest).isSome = true := by decide +kernel
  obtain ⟨bytes, hbytes⟩ := Option.isSome_iff_exists.mp hsigning
  have hsigned : (reference.canonicalIdForm
      (sampleRequest.withSignature (some sampleSignature))).isSome = true := by decide +kernel
  obtain ⟨form', hform'⟩ := Option.isSome_iff_exists.mp hsigned
  have hdigest : some sampleRequest.id ≠
      reference.computeId (sampleRequest.withSignature (some sampleSignature)) := by decide +kernel
  have hfree : reference.CollisionFree [form, form'] := by
    rw [← hid, Platform.computeId, Platform.computeId, hform, hform'] at hdigest
    refine collisionFree_of_nodup ?_
    simpa using hdigest
  obtain ⟨-, -, hids, hapart, -⟩ := forms_bind_and_differ reference sampleRequest sampleRequest
  refine ⟨bytes, form, hbytes, hform, ?_, hbytes, ?_⟩
  · rintro rfl
    exact (hapart bytes hbytes).1 hform
  · exact (hids (some sampleSignature) form form' (by decide) hform hform').2 hfree

end Bellbook
