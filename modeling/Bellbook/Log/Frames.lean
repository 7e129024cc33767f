import Bellbook.Base.RoundTrip
import Bellbook.Log.Writer

/-!
# The frames of a log

`frames` is what `records.log` holds when every append was completed. Reading it back gives the
records and takes all of its bytes, also when a torn frame follows (`readFrames_frames`), so opening
such a file gives the records and cuts the torn frame off (`openFile_frames`).
-/

namespace Bellbook

open Std

/-- What reading a file that holds exactly these records gives. -/
def fileLogOver (file : Bytes) (intent : Option Bytes) (records : List Record) (maxFileBytes : Nat) :
    FileLog where
  file := file
  intent := intent
  records := records
  index := positionIndex records
  maxFileBytes := maxFileBytes

namespace Platform

variable (P : Platform)

/-- The frames of the records, one after the other. -/
def frames : List Record → Except LogError Bytes
  | [] => .ok []
  | r :: rest => do
    let body ← P.encodeRecord r
    let bytes ← frames rest
    return frame body ++ bytes

/-- `serde_json` reads the canonical text of each of these records back as that record. -/
def ReadsRecords (L : List Record) : Prop :=
  ∀ r ∈ L, ∀ bytes, P.canonicalJson r = some bytes → P.decode Record bytes = some r

/-- Nothing complete can be read from the bytes. -/
def Torn (bytes : Bytes) : Prop := ∀ fuel, P.readFrames fuel bytes = .ok ([], 0)

/-- The bytes are complete frames, and these records are what `serde_json` reads from their bodies. -/
inductive Framed : Bytes → List Record → Prop
  | nil : Framed [] []
  | cons {body bytes : Bytes} {r : Record} {L : List Record} (hlen : body.length < 256 ^ 4)
      (hread : P.decode Record body = some r) (hrest : Framed bytes L) :
      Framed (frame body ++ bytes) (r :: L)

end Platform

variable {P : Platform}

/-! ## One frame -/

theorem beNat_beBytes {n x : Nat} (h : x < 256 ^ n) : beNat (beBytes n x) = x := by
  rw [beNat, foldl_beBytes, Nat.zero_mul, Nat.zero_add, Nat.mod_eq_of_lt h]

theorem length_frame (body : Bytes) : (Platform.frame body).length = 4 + body.length := by
  simp [Platform.frame]

/-- A body that can be written, and reads back. -/
theorem encodeRecord_eq_ok {r : Record} {body : Bytes} :
    P.encodeRecord r = .ok body ↔ P.canonicalJson r = some body ∧ body.length < 256 ^ 4 := by
  unfold Platform.encodeRecord
  cases P.canonicalJson r with
  | none => simp
  | some bytes =>
    simp only [Option.some.injEq]
    split
    · next hlong =>
      simp only [reduceCtorEq, false_iff, not_and]
      rintro rfl
      omega
    · next hshort =>
      simp only [Except.ok.injEq]
      constructor
      · rintro rfl
        exact ⟨rfl, by omega⟩
      · exact And.left

/-- A complete frame is read first. -/
theorem readFrames_frame {r : Record} {body rest : Bytes} (hlen : body.length < 256 ^ 4)
    (hr : P.decode Record body = some r) (fuel : Nat) {records : List Record} {valid : Nat}
    (hrest : P.readFrames fuel rest = .ok (records, valid)) :
    P.readFrames (fuel + 1) (Platform.frame body ++ rest) =
      .ok (r :: records, (Platform.frame body).length + valid) := by
  have htake : (Platform.frame body ++ rest).take 4 = beBytes 4 body.length := by
    simp [Platform.frame]
  have hdrop : (Platform.frame body ++ rest).drop 4 = body ++ rest := by
    simp [Platform.frame]
  have htail : (Platform.frame body ++ rest).drop (4 + body.length) = rest := by
    rw [← List.drop_drop, hdrop]
    simp
  have hsize : (Platform.frame body ++ rest).length = 4 + body.length + rest.length := by
    rw [List.length_append, length_frame]
  rw [Platform.readFrames]
  simp only [htake, beNat_beBytes hlen, hdrop, htail, hsize]
  rw [if_neg (by omega), if_neg (by omega), List.take_left' rfl, hr, length_frame]
  simp only [hrest]
  rfl

theorem torn_nil : P.Torn [] := by
  intro fuel
  cases fuel <;> rfl

/-- A part of a frame is torn. -/
theorem torn_of_lt {body bytes : Bytes} (hlen : body.length < 256 ^ 4)
    (hpre : bytes <+: Platform.frame body) (hlt : bytes.length < (Platform.frame body).length) :
    P.Torn bytes := by
  intro fuel
  cases fuel with
  | zero => rfl
  | succ fuel =>
    rw [Platform.readFrames]
    split
    · rfl
    · next hfour =>
      have htake : bytes.take 4 = beBytes 4 body.length := by
        obtain ⟨rest, hrest⟩ := hpre
        have : (bytes ++ rest).take 4 = bytes.take 4 := List.take_append_of_le_length (by omega)
        rw [← this, hrest]
        simp [Platform.frame]
      rw [length_frame] at hlt
      simp only [htake, beNat_beBytes hlen]
      rw [if_pos hlt]

/-! ## Whole files -/

section Frames

variable {L M : List Record} {file file' rest : Bytes}

theorem frames_append : P.frames (L ++ M) = .ok file ↔
    ∃ a b, P.frames L = .ok a ∧ P.frames M = .ok b ∧ file = a ++ b := by
  induction L generalizing file with
  | nil => simp [Platform.frames]
  | cons r L ih =>
    simp only [List.cons_append, Platform.frames, bind_eq_ok, ih, pure, Except.pure, Except.ok.injEq]
    constructor
    · rintro ⟨body, hbody, _, ⟨a, b, ha, hb, rfl⟩, rfl⟩
      exact ⟨_, b, ⟨body, hbody, a, ha, rfl⟩, hb, by simp⟩
    · rintro ⟨_, b, ⟨body, hbody, a, ha, rfl⟩, hb, rfl⟩
      exact ⟨body, hbody, _, ⟨a, b, ha, hb, rfl⟩, by simp⟩

theorem frames_singleton {r : Record} :
    P.frames [r] = .ok file ↔ ∃ body, P.encodeRecord r = .ok body ∧ file = Platform.frame body := by
  simp only [Platform.frames, bind_eq_ok, pure, Except.pure, Except.ok.injEq]
  constructor
  · rintro ⟨body, hbody, _, rfl, rfl⟩
    exact ⟨body, hbody, by simp⟩
  · rintro ⟨body, hbody, rfl⟩
    exact ⟨body, hbody, [], rfl, by simp⟩

theorem Platform.ReadsRecords.mono (h : P.ReadsRecords L) (hsub : M ⊆ L) : P.ReadsRecords M :=
  fun r hr => h r (hsub hr)

/-- Written frames are complete ones. -/
theorem framed_of_frames (hread : P.ReadsRecords L) (h : P.frames L = .ok file) : P.Framed file L := by
  induction L generalizing file with
  | nil =>
    cases h
    exact .nil
  | cons r L ih =>
    simp only [Platform.frames, bind_eq_ok, pure, Except.pure, Except.ok.injEq] at h
    obtain ⟨body, hbody, bytes, hbytes, rfl⟩ := h
    obtain ⟨hjson, hlen⟩ := encodeRecord_eq_ok.mp hbody
    exact .cons hlen (hread r List.mem_cons_self body hjson)
      (ih (hread.mono (List.subset_cons_self _ _)) hbytes)

theorem Platform.Framed.length_le (h : P.Framed file L) : L.length ≤ file.length := by
  induction h with
  | nil => simp
  | cons _ _ _ ih =>
    rw [List.length_cons, List.length_append, length_frame]
    omega

/-- Complete frames are read, up to a torn one. -/
theorem Platform.Framed.readFrames (h : P.Framed file L) (htorn : P.Torn rest) {fuel : Nat}
    (hfuel : L.length ≤ fuel) : P.readFrames fuel (file ++ rest) = .ok (L, file.length) := by
  induction h generalizing fuel with
  | nil => exact htorn fuel
  | cons hlen hread _ ih =>
    cases fuel with
    | zero => simp at hfuel
    | succ fuel =>
      rw [List.append_assoc, readFrames_frame hlen hread fuel (ih (Nat.le_of_succ_le_succ hfuel)),
        List.length_append]

/-- **Reading inverts writing**, and stops at a torn frame. -/
theorem readFrames_frames (hread : P.ReadsRecords L) (h : P.frames L = .ok file)
    (htorn : P.Torn rest) {fuel : Nat} (hfuel : L.length ≤ fuel) :
    P.readFrames fuel (file ++ rest) = .ok (L, file.length) :=
  (framed_of_frames hread h).readFrames htorn hfuel

/-- Opening a file of frames, whatever torn frame it ends in. -/
theorem openFile_frames (hread : P.ReadsRecords L) (h : P.frames L = .ok file)
    (htorn : P.Torn rest) {maxFileBytes : Nat} (hfit : (file ++ rest).length ≤ maxFileBytes)
    (intent : Option Bytes) : P.openFile (file ++ rest) intent maxFileBytes =
      .ok (fileLogOver file intent L maxFileBytes) := by
  have hfuel : L.length ≤ (file ++ rest).length + 1 := by
    have := (framed_of_frames hread h).length_le
    rw [List.length_append]
    omega
  have hok : refuseIf (maxFileBytes < (file ++ rest).length)
      (.logSizeLimitExceeded (file ++ rest).length maxFileBytes) = .ok () := by
    rw [refuseIf_eq_ok]
    omega
  rw [Platform.openFile, hok, readFrames_frames hread h htorn hfuel]
  simp [bind, Except.bind, pure, Except.pure, fileLogOver]

end Frames

end Bellbook
