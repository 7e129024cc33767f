import Bellbook.Verify.Replay

/-!
# Append-only storage (`log/storage.rs`, `base/time.rs`)

`FileLog` is the log directory with its records in memory: the bytes of `records.log`, a sequence
of frames (a big-endian `u32` length and the canonical JSON of one record), the crash marker
`.intent`, and an index from ids to positions in which the last occurrence wins.

An append may fail after any number of bytes have reached the file; the argument of type
`Option Nat` says where, `none` being success.
-/

namespace Bellbook

open Std

inductive LogError where
  | alreadyLocked
  | io
  | corruptedRecovery
  | recoveryRequired
  | timeExhausted
  | headConflict (expected actual : RecordId)
  | recordTooLarge (bytes : Nat)
  | logSizeLimitExceeded (bytes maxBytes : Nat)
  | invalidExistingLog (reason : Option ReasonCode)
  | stateMismatch
  | rulesMismatch
  | serdeJson
  deriving DecidableEq

section Errors

variable {α β : Type}

/-- Return early with `e` when the condition holds. -/
def refuseIf (c : Prop) [Decidable c] (e : LogError) : Except LogError Unit :=
  if c then .error e else .ok ()

/-- The value, or the error `e` when there is none. -/
def orError (o : Option α) (e : LogError) : Except LogError α :=
  match o with
  | some a => .ok a
  | none => .error e

/-- A JSON error of the source. -/
def orSerde (o : Option α) : Except LogError α := orError o .serdeJson

@[simp] theorem refuseIf_eq_ok {c : Prop} [Decidable c] {e : LogError} {u : Unit} :
    refuseIf c e = .ok u ↔ ¬c := by
  simp [refuseIf]

@[simp] theorem orError_eq_ok {o : Option α} {e : LogError} {a : α} :
    orError o e = .ok a ↔ o = some a := by
  cases o <;> simp [orError]

@[simp] theorem orSerde_eq_ok {o : Option α} {a : α} : orSerde o = .ok a ↔ o = some a :=
  orError_eq_ok

end Errors

/-! ## Logical time -/

structure TimeSource where
  next : Time
  deriving DecidableEq

/-- `u64::saturating_add(1)`. -/
def saturatingNext (t : Time) : Time := (nextTime? t).getD t

namespace TimeSource

/-- `TimeSource::from_last_time`. -/
def fromLastTime (last : Option Time) : TimeSource := ⟨saturatingNext (last.getD 0)⟩

/-- `TimeSource::next_time`, the counter after handing out one time. -/
def advance (t : TimeSource) : TimeSource := ⟨saturatingNext t.next⟩

/-- `TimeSource::exhausted`. -/
def exhausted (t : TimeSource) : Bool := 18446744073709551614 ≤ t.next.toNat

end TimeSource

/-! ## The file log -/

structure FileLog where
  file : Bytes
  intent : Option Bytes
  records : List Record
  index : IdMap Nat
  maxFileBytes : Nat

/-- The last occurrence of an id wins. -/
def positionIndex (records : List Record) : IdMap Nat :=
  records.zipIdx.foldl (fun m p => m.insert p.1.id p.2) ∅

namespace FileLog

/-- `FileLog::get`. -/
def get (log : FileLog) (id : RecordId) : Option Record :=
  log.index[id]?.bind fun pos => log.records[pos]?

/-- `FileLog::last_time`. -/
def lastTime (log : FileLog) : Option Time := log.records.getLast?.map Record.time

/-- `FileLog::scan`; `none` where slicing would panic. -/
def scan (log : FileLog) (lo hi : Time) : Option (List Record) :=
  let start := (log.records.takeWhile fun r => r.time < lo).length
  let stop := (log.records.takeWhile fun r => r.time ≤ hi).length
  if start ≤ stop then some ((log.records.take stop).drop start) else none

end FileLog

/-- `u32::from_be_bytes`. -/
def beNat (bs : Bytes) : Nat := bs.foldl (fun acc b => acc * 256 + b.toNat) 0

namespace Platform

variable (P : Platform)

/-- `encode_record`: the body of a frame. -/
def encodeRecord (r : Record) : Except LogError Bytes :=
  match P.canonicalJson r with
  | none => .error .io
  | some bytes => if 4294967295 < bytes.length then .error (.recordTooLarge bytes.length)
    else .ok bytes

/-- One frame: the length prefix and the body. -/
def frame (body : Bytes) : Bytes := beBytes 4 body.length ++ body

/-- `ensure_capacity_for`: the frames of the records fit into what is left of the file. -/
def ensureCapacityFor (log : FileLog) (records : List Record) : Except LogError Unit := do
  let bodies ← records.mapM P.encodeRecord
  let projected := log.file.length + (bodies.map fun b => 4 + b.length).sum
  refuseIf (log.maxFileBytes < projected ∨ 18446744073709551616 ≤ projected)
    (.logSizeLimitExceeded (min projected 18446744073709551615) log.maxFileBytes)

/-- `FileLog::append`. -/
def append (log : FileLog) (fault : Option Nat) (r : Record) : Except LogError Unit × FileLog :=
  match P.encodeRecord r, P.ensureCapacityFor log [r] with
  | .error e, _ => (.error e, log)
  | .ok _, .error e => (.error e, log)
  | .ok body, .ok () =>
    match fault with
    | some n => (.error .io, { log with file := log.file ++ (frame body).take n })
    | none => (.ok (), { log with
        file := log.file ++ frame body
        index := log.index.insert r.id log.records.length
        records := log.records ++ [r] })

/-- `read_all_records`: the complete frames and how many bytes they take. -/
def readFrames : Nat → Bytes → Except LogError (List Record × Nat)
  | 0, _ => .ok ([], 0)
  | fuel + 1, data =>
    if data.length < 4 then .ok ([], 0)
    else
      let len := beNat (data.take 4)
      if data.length < 4 + len then .ok ([], 0)
      else match P.decode Record ((data.drop 4).take len) with
        | none => .error .io
        | some r => do
          let (records, valid) ← readFrames fuel (data.drop (4 + len))
          return (r :: records, 4 + len + valid)

/-- `FileLog::open`: a torn trailing frame is truncated away. -/
def openFile (file : Bytes) (intent : Option Bytes) (maxFileBytes : Nat) :
    Except LogError FileLog := do
  refuseIf (maxFileBytes < file.length) (.logSizeLimitExceeded file.length maxFileBytes)
  let (records, valid) ← P.readFrames (file.length + 1) file
  return { file := file.take valid, intent, records, index := positionIndex records, maxFileBytes }

end Platform

end Bellbook
