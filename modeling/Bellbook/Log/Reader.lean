import Mathlib.Data.List.TakeWhile
import Bellbook.Log.Recovery

/-!
# Reading a log (`log/storage.rs`)

`read_all_records` walks a cursor over a buffer whose length prefixes anybody may have written.
`readLoop` is that loop with every index and every slice of the source checked: the value is `none`
where the source would panic. It never is, and the loop computes what `readFrames` says
(`readLoop_eq`).

The cursor is always behind complete frames (`framed_of_readFrames`), so that what is returned as
the valid length can be cut at and read again.

A scan of the records in memory takes the part between two partition points. Their order is not
checked: with the bounds the wrong way round and a record between them the slice is out of range
(`scan_exact_iff`).
-/

namespace Bellbook

open Std

/-- `usize::checked_add`. -/
def checkedAdd (a b : Nat) : Option Nat := if a + b < 18446744073709551616 then some (a + b) else none

/-- `complete_frame_end`. -/
def completeFrameEnd (bodyStart bodyLen totalLen : Nat) : Option Nat :=
  (checkedAdd bodyStart bodyLen).filter fun frameEnd => frameEnd ≤ totalLen

/-- The length prefix at the cursor, one checked index after the other. -/
def lengthAt (data : Bytes) (cursor : Nat) : Option Nat := do
  let b0 ← data[cursor]?
  let b1 ← data[cursor + 1]?
  let b2 ← data[cursor + 2]?
  let b3 ← data[cursor + 3]?
  return beNat [b0, b1, b2, b3]

/-- `&data[start..stop]`. -/
def sliceOf (data : Bytes) (start stop : Nat) : Option Bytes :=
  if start ≤ stop ∧ stop ≤ data.length then some ((data.take stop).drop start) else none

theorem checkedAdd_eq_some {a b c : Nat} :
    checkedAdd a b = some c ↔ c = a + b ∧ a + b < 18446744073709551616 := by
  simp only [checkedAdd, Option.ite_none_right_eq_some, Option.some.injEq]
  grind

theorem completeFrameEnd_eq_some {bodyStart bodyLen totalLen frameEnd : Nat} :
    completeFrameEnd bodyStart bodyLen totalLen = some frameEnd ↔
      frameEnd = bodyStart + bodyLen ∧ bodyStart + bodyLen < 18446744073709551616 ∧
        bodyStart + bodyLen ≤ totalLen := by
  simp only [completeFrameEnd, Option.filter_eq_some_iff, checkedAdd_eq_some, decide_eq_true_eq]
  grind

namespace Platform

variable (P : Platform)

/-- The loop of `read_all_records` from the cursor on, behind the records it has read. -/
def readLoop (data : Bytes) (cursor : Nat) (records : List Record) :
    Option (Except LogError (List Record × Nat)) :=
  if 4 ≤ data.length - cursor then
    match _hstart : checkedAdd cursor 4, lengthAt data cursor with
    | some bodyStart, some len =>
      match _hend : completeFrameEnd bodyStart len data.length with
      -- torn or impossible: stop at the last complete record
      | none => some (.ok (records, cursor))
      | some frameEnd =>
        match sliceOf data bodyStart frameEnd with
        | none => none
        | some body =>
          match P.decode Record body with
          | none => some (.error .io)
          | some r => readLoop data frameEnd (records ++ [r])
    | _, _ => none
  else some (.ok (records, cursor))
termination_by data.length - cursor
decreasing_by
  have := (checkedAdd_eq_some.mp _hstart).1
  have := completeFrameEnd_eq_some.mp _hend
  omega

/-- `read_all_records`: the records, the end of the last complete frame, and the bytes read. -/
def readAllRecords (file : Bytes) (maxFileBytes : UInt64) :
    Option (Except LogError (List Record × Nat × Nat)) :=
  -- `saturating_add(1)`: one byte more than allowed proves that the file is too long
  let readLimit := min (maxFileBytes.toNat + 1) 18446744073709551615
  let data := file.take readLimit
  if maxFileBytes.toNat < data.length then
    some (.error (.logSizeLimitExceeded data.length maxFileBytes.toNat))
  else
    (P.readLoop data 0 []).map fun out => out.map fun x => (x.1, x.2, data.length)

end Platform

variable {P : Platform}

/-! ## Inside the buffer -/

section Buffer

variable {data : Bytes} {cursor : Nat}

theorem lengthAt_eq (h : cursor + 4 ≤ data.length) :
    lengthAt data cursor = some (beNat ((data.drop cursor).take 4)) := by
  have htake : (data.drop cursor).take 4 =
      [data[cursor], data[cursor + 1], data[cursor + 2], data[cursor + 3]] := by
    rw [List.drop_eq_getElem_cons (by omega), List.drop_eq_getElem_cons (by omega),
      List.drop_eq_getElem_cons (by omega), List.drop_eq_getElem_cons (by omega)]
    rfl
  rw [htake, lengthAt, List.getElem?_eq_getElem (by omega), List.getElem?_eq_getElem (by omega),
    List.getElem?_eq_getElem (by omega), List.getElem?_eq_getElem (by omega)]
  rfl

theorem sliceOf_eq {start len : Nat} (h : start + len ≤ data.length) :
    sliceOf data start (start + len) = some ((data.drop start).take len) := by
  rw [sliceOf, if_pos ⟨by omega, h⟩, List.drop_take]
  simp

end Buffer

/-- **The cursor stays inside the buffer**, and the loop computes what `readFrames` says of the bytes
from the cursor on. -/
theorem readLoop_eq {data : Bytes} (hword : data.length < 18446744073709551616) {fuel : Nat} :
    ∀ {cursor : Nat} {records : List Record}, cursor ≤ data.length → data.length - cursor < fuel →
      P.readLoop data cursor records = some ((P.readFrames fuel (data.drop cursor)).map fun x =>
        (records ++ x.1, cursor + x.2)) := by
  induction fuel with
  | zero =>
    intro cursor records _ hfuel
    omega
  | succ fuel ih =>
    intro cursor records hcursor hfuel
    rw [Platform.readLoop, Platform.readFrames]
    simp only [List.length_drop]
    by_cases hfour : 4 ≤ data.length - cursor
    · have hstart : checkedAdd cursor 4 = some (cursor + 4) :=
        checkedAdd_eq_some.mpr ⟨rfl, by omega⟩
      rw [if_pos hfour, if_neg (by omega), hstart, lengthAt_eq (by omega)]
      generalize beNat ((data.drop cursor).take 4) = len
      dsimp only
      by_cases hfits : cursor + 4 + len ≤ data.length
      · have hend : completeFrameEnd (cursor + 4) len data.length = some (cursor + 4 + len) :=
          completeFrameEnd_eq_some.mpr ⟨rfl, by omega, hfits⟩
        rw [hend, if_neg (by omega), List.drop_drop]
        simp only [sliceOf_eq hfits]
        cases P.decode Record ((data.drop (cursor + 4)).take len) with
        | none => rfl
        | some r =>
          dsimp only
          rw [ih hfits (by omega), List.drop_drop, ← Nat.add_assoc]
          cases P.readFrames fuel (data.drop (cursor + 4 + len)) with
          | error e => rfl
          | ok x => simp [Except.map, bind, Except.bind, pure, Except.pure, Nat.add_assoc]
      · have hend : completeFrameEnd (cursor + 4) len data.length = none := by
          rw [Option.eq_none_iff_forall_ne_some]
          intro frameEnd h
          exact hfits (completeFrameEnd_eq_some.mp h).2.2
        rw [hend, if_pos (by omega)]
        simp [Except.map]
    · rw [if_neg hfour, if_pos (by omega)]
      simp [Except.map]

/-! ## Behind complete frames -/

theorem beNat_cons (b : UInt8) (bs : Bytes) :
    beNat (b :: bs) = b.toNat * 256 ^ bs.length + beNat bs := by
  have hfold : ∀ (bs : Bytes) (acc : Nat), bs.foldl (fun acc b => acc * 256 + b.toNat) acc =
      acc * 256 ^ bs.length + beNat bs := by
    intro bs
    induction bs using List.reverseRecOn with
    | nil => simp [beNat]
    | append_singleton bs b ih =>
      intro acc
      simp only [beNat, List.foldl_append, List.foldl_cons, List.foldl_nil, List.length_append,
        List.length_singleton, ih acc, Nat.pow_succ]
      ring
  rw [beNat, List.foldl_cons, hfold, Nat.zero_mul, Nat.zero_add]

theorem beNat_lt (bs : Bytes) : beNat bs < 256 ^ bs.length := by
  induction bs with
  | nil => simp [beNat]
  | cons b bs ih =>
    have hb : b.toNat < 256 := b.toNat_lt
    calc beNat (b :: bs) = b.toNat * 256 ^ bs.length + beNat bs := beNat_cons b bs
      _ < (b.toNat + 1) * 256 ^ bs.length := by
        rw [Nat.succ_mul]
        exact Nat.add_lt_add_left ih _
      _ ≤ 256 * 256 ^ bs.length := Nat.mul_le_mul_right _ hb
      _ = 256 ^ (b :: bs).length := by rw [List.length_cons, Nat.pow_succ, Nat.mul_comm]

/-- Only the low bytes count. -/
theorem beBytes_add_mul (n : Nat) : ∀ c x, beBytes n (c * 256 ^ n + x) = beBytes n x := by
  induction n with
  | zero => simp [beBytes]
  | succ n ih =>
    intro c x
    have hpow : c * 256 ^ (n + 1) = c * 256 * 256 ^ n := by ring
    have hdigit : (c * 256 * 256 ^ n + x) / 256 ^ n = c * 256 + x / 256 ^ n := by
      rw [Nat.add_comm, Nat.add_mul_div_right _ _ (Nat.pow_pos (by decide)), Nat.add_comm]
    rw [beBytes, beBytes, hpow, ih (c * 256), hdigit, Nat.mul_comm, Nat.mul_add_mod]

/-- Writing inverts reading. -/
theorem beBytes_beNat {n : Nat} {bs : Bytes} (h : bs.length = n) : beBytes n (beNat bs) = bs := by
  induction bs generalizing n with
  | nil =>
    subst h
    rfl
  | cons b bs ih =>
    subst h
    have hb : b.toNat < 256 := b.toNat_lt
    have hdigit : (b.toNat * 256 ^ bs.length + beNat bs) / 256 ^ bs.length = b.toNat := by
      rw [Nat.add_comm, Nat.add_mul_div_right _ _ (Nat.pow_pos (by decide)),
        Nat.div_eq_of_lt (beNat_lt bs), Nat.zero_add]
    rw [beNat_cons, List.length_cons, beBytes, hdigit, beBytes_add_mul, ih rfl, Nat.mod_eq_of_lt hb,
      UInt8.ofNat_toNat]

/-- What was read stands in complete frames at the beginning of the bytes. -/
theorem framed_of_readFrames {fuel : Nat} : ∀ {data : Bytes} {records : List Record} {valid : Nat},
    P.readFrames fuel data = .ok (records, valid) →
      valid ≤ data.length ∧ P.Framed (data.take valid) records := by
  induction fuel with
  | zero =>
    intro data records valid h
    cases h
    exact ⟨Nat.zero_le _, .nil⟩
  | succ fuel ih =>
    intro data records valid h
    rw [Platform.readFrames] at h
    split at h
    · cases h
      exact ⟨Nat.zero_le _, .nil⟩
    · next hfour =>
      dsimp only at h
      split at h
      · cases h
        exact ⟨Nat.zero_le _, .nil⟩
      · next hfits =>
        split at h
        · cases h
        · next r hread =>
          simp only [bind_eq_ok, pure, Except.pure, Except.ok.injEq, Prod.mk.injEq, Prod.exists] at h
          obtain ⟨rest, left, hrest, rfl, rfl⟩ := h
          obtain ⟨hle, hframed⟩ := ih hrest
          have hhead : (data.take 4).length = 4 := by
            rw [List.length_take]
            omega
          generalize hlen : beNat (data.take 4) = len at *
          have hbody : ((data.drop 4).take len).length = len := by
            rw [List.length_take, List.length_drop]
            omega
          have hframe : Platform.frame ((data.drop 4).take len) = data.take (4 + len) := by
            rw [Platform.frame, hbody, List.take_add, ← hlen, beBytes_beNat hhead]
          rw [List.length_drop] at hle
          refine ⟨by omega, ?_⟩
          rw [List.take_add, ← hframe]
          refine .cons ?_ hread hframed
          rw [hbody, ← hlen]
          have := beNat_lt (data.take 4)
          rwa [hhead] at this

/-! ## The whole buffer -/

section Whole

variable {data file rest : Bytes} {L : List Record} {maxFileBytes : UInt64}

/-- Within the limit, all bytes are read, and the loop is over them. -/
theorem readAllRecords_eq (hfit : data.length ≤ maxFileBytes.toNat) :
    P.readAllRecords data maxFileBytes = some ((P.readFrames (data.length + 1) data).map fun x =>
      (x.1, x.2, data.length)) := by
  have hlimit : maxFileBytes.toNat < 18446744073709551616 := maxFileBytes.toNat_lt
  have hall : data.take (min (maxFileBytes.toNat + 1) 18446744073709551615) = data :=
    List.take_of_length_le (by omega)
  have hloop : P.readLoop data 0 [] = some ((P.readFrames (data.length + 1) (data.drop 0)).map fun x =>
      ([] ++ x.1, 0 + x.2)) :=
    readLoop_eq (by omega) (Nat.zero_le data.length) (Nat.lt_succ_of_le (Nat.sub_le data.length 0))
  rw [List.drop_zero] at hloop
  rw [Platform.readAllRecords, hall, if_neg (by omega), hloop]
  cases P.readFrames (data.length + 1) data with
  | error e => rfl
  | ok x => simp [Except.map]

/-- Whatever the bytes are, the reader returns, and the length it returns is behind complete frames. -/
theorem readAllRecords_boundary (P : Platform) (data : Bytes) (maxFileBytes : UInt64) :
    ∃ out, P.readAllRecords data maxFileBytes = some out ∧
      ∀ records valid read, out = .ok (records, valid, read) →
        valid ≤ read ∧ read ≤ data.length ∧ read ≤ maxFileBytes.toNat ∧
          P.Framed (data.take valid) records := by
  generalize hlimit : min (maxFileBytes.toNat + 1) 18446744073709551615 = limit
  have hlen := List.length_take (i := limit) (l := data)
  by_cases hlong : maxFileBytes.toNat < (data.take limit).length
  · refine ⟨.error (.logSizeLimitExceeded (data.take limit).length maxFileBytes.toNat), ?_, ?_⟩
    · simp only [Platform.readAllRecords, hlimit]
      rw [if_pos hlong]
    · intro _ _ _ h
      cases h
  · have hcut : P.readAllRecords data maxFileBytes =
        P.readAllRecords (data.take limit) maxFileBytes := by
      simp only [Platform.readAllRecords, hlimit, List.take_take, Nat.min_self]
    rw [hcut, readAllRecords_eq (Nat.not_lt.mp hlong)]
    refine ⟨_, rfl, ?_⟩
    intro records valid read h
    obtain ⟨⟨records', valid'⟩, hread, heq⟩ := map_eq_ok.mp h
    cases heq
    obtain ⟨hle, hframed⟩ := framed_of_readFrames hread
    rw [List.take_take, Nat.min_eq_left (by omega)] at hframed
    exact ⟨hle, by omega, Nat.not_lt.mp hlong, hframed⟩

theorem readAllRecords_framed (h : P.Framed file L) (htorn : P.Torn rest)
    (hfit : (file ++ rest).length ≤ maxFileBytes.toNat) :
    P.readAllRecords (file ++ rest) maxFileBytes =
      some (.ok (L, file.length, (file ++ rest).length)) := by
  have hfuel : L.length ≤ (file ++ rest).length + 1 := by
    have := h.length_le
    rw [List.length_append]
    omega
  rw [readAllRecords_eq hfit, h.readFrames htorn hfuel]
  rfl

theorem readAllRecords_complete (h : P.Framed file L) (hfit : file.length ≤ maxFileBytes.toNat) :
    P.readAllRecords file maxFileBytes = some (.ok (L, file.length, file.length)) := by
  have := readAllRecords_framed h torn_nil (by simpa using hfit)
  rwa [List.append_nil] at this

/-- **Frame codec and torn tail.** Behind the frames of records stands a proper part of one more
frame: within the size limit the reader returns the records and the length of their frames, opening
the file cuts there, and what is left reads again to the same records. And whatever the bytes are, the
reader returns, without an index or a slice outside the buffer; what it returns as valid length ends
complete frames, and these read again to the same records. -/
theorem frame_codec (P : Platform) (maxFileBytes : UInt64) :
    (∀ L r file next torn, P.ReadsRecords L → P.frames L = .ok file → P.frames [r] = .ok next →
      torn <+: next → torn ≠ next → (file ++ torn).length ≤ maxFileBytes.toNat →
      P.readAllRecords (file ++ torn) maxFileBytes =
          some (.ok (L, file.length, (file ++ torn).length)) ∧
        P.readAllRecords ((file ++ torn).take file.length) maxFileBytes =
          some (.ok (L, file.length, file.length)) ∧
        ∀ intent, P.openFile (file ++ torn) intent maxFileBytes.toNat =
          .ok (fileLogOver file intent L maxFileBytes.toNat)) ∧
    ∀ data, ∃ out, P.readAllRecords data maxFileBytes = some out ∧
      ∀ records valid read, out = .ok (records, valid, read) →
        valid ≤ read ∧ read ≤ data.length ∧ P.Framed (data.take valid) records ∧
          P.readAllRecords (data.take valid) maxFileBytes = some (.ok (records, valid, valid)) := by
  constructor
  · intro L r file next torn hread hfile hnext hpre hne hfit
    obtain ⟨body, hbody, rfl⟩ := frames_singleton.mp hnext
    have hlt : torn.length < (Platform.frame body).length := by
      refine Nat.lt_of_le_of_ne hpre.length_le ?_
      intro heq
      exact hne (hpre.eq_of_length heq)
    have htorn : P.Torn torn := torn_of_lt (encodeRecord_eq_ok.mp hbody).2 hpre hlt
    have hframed := framed_of_frames hread hfile
    refine ⟨readAllRecords_framed hframed htorn hfit, ?_, openFile_frames hread hfile htorn hfit⟩
    rw [List.take_left' rfl]
    rw [List.length_append] at hfit
    exact readAllRecords_complete hframed (by omega)
  · intro data
    obtain ⟨out, hout, hspec⟩ := readAllRecords_boundary P data maxFileBytes
    refine ⟨out, hout, ?_⟩
    intro records valid read h
    obtain ⟨hle, hall, hfit, hframed⟩ := hspec records valid read h
    have hlen : (data.take valid).length = valid := by
      rw [List.length_take]
      omega
    refine ⟨hle, hall, hframed, ?_⟩
    rw [readAllRecords_complete hframed (by omega), hlen]

end Whole

theorem strayLog_frames :
    ((reference.frames strayLog).toOption.any fun file => file.length ≤ 65536) = true := by
  decide +kernel

/-- The stray subject with its verdict torn anywhere. -/
theorem strayLog_torn : ∃ subject verdict file next, strayLog = [subject, verdict] ∧
    reference.frames [subject] = .ok file ∧ reference.frames [verdict] = .ok next ∧
      ∀ n < next.length, reference.readAllRecords (file ++ next.take n) 65536 =
        some (.ok ([subject], file.length, (file ++ next.take n).length)) := by
  obtain ⟨subject, verdict, hlog⟩ : ∃ subject verdict, strayLog = [subject, verdict] := ⟨_, _, rfl⟩
  have hframes := strayLog_frames
  have hreads := strayLog_reads
  rw [hlog] at hframes hreads
  cases hall : reference.frames ([subject] ++ [verdict]) with
  | error e =>
    rw [List.singleton_append] at hall
    rw [hall] at hframes
    cases hframes
  | ok bytes =>
    obtain ⟨file, next, hfile, hnext, rfl⟩ := frames_append.mp hall
    rw [List.singleton_append] at hall
    rw [hall] at hframes
    have hsize : (file ++ next).length ≤ 65536 := of_decide_eq_true hframes
    refine ⟨subject, verdict, file, next, hlog, hfile, hnext, ?_⟩
    intro n hn
    have hlen : (next.take n).length = n := List.length_take_of_le hn.le
    refine ((frame_codec reference 65536).1 [subject] verdict file next (next.take n)
      (hreads.mono (by simp)) hfile hnext (List.take_prefix _ _) ?_ ?_).1
    · intro heq
      rw [heq] at hlen
      omega
    · have hmax : (65536 : UInt64).toNat = 65536 := rfl
      rw [List.length_append] at hsize ⊢
      omega

/-! ## Scans -/

section Partition

variable {α : Type} {p q : α → Bool} {as : List α}

/-- The predicate holds up to some place of the list and fails from there on. -/
def Partitioned (p : α → Bool) (as : List α) : Prop := as.Pairwise fun a b => p b = true → p a = true

theorem Partitioned.takeWhile_eq (h : Partitioned p as) : as.takeWhile p = as.filter p := by
  induction as with
  | nil => rfl
  | cons a as ih =>
    obtain ⟨hhead, htail⟩ := List.pairwise_cons.mp h
    rw [List.takeWhile_cons, List.filter_cons]
    split
    · rw [ih htail]
    · next hfail =>
      symm
      rw [List.filter_eq_nil_iff]
      intro b hb hpb
      exact hfail (hhead b hb hpb)

theorem Partitioned.drop_eq (h : Partitioned p as) :
    as.drop (as.takeWhile p).length = as.filter fun a => !p a := by
  induction as with
  | nil => rfl
  | cons a as ih =>
    obtain ⟨hhead, htail⟩ := List.pairwise_cons.mp h
    by_cases hpa : p a = true
    · simp [hpa, ih htail]
    · have hall : ∀ b ∈ a :: as, (!p b) = true := by
        intro b hb
        cases hb with
        | head => simpa using hpa
        | tail _ hb => simpa using mt (hhead b hb) hpa
      rw [List.takeWhile_cons_of_neg hpa, List.filter_eq_self.mpr hall]
      rfl

/-- Two partition points are in order as long as no element lies between them the wrong way round. -/
theorem Partitioned.length_le_iff (hp : Partitioned p as) (hq : Partitioned q as) :
    (as.takeWhile p).length ≤ (as.takeWhile q).length ↔ ∀ a ∈ as, p a = true → q a = true := by
  rw [hp.takeWhile_eq, hq.takeWhile_eq]
  constructor
  · intro hle a ha hpa
    have hsub : as.filter p <+: as.filter q := by
      rw [← hp.takeWhile_eq, ← hq.takeWhile_eq] at hle ⊢
      exact List.prefix_of_prefix_length_le (List.takeWhile_prefix p) (List.takeWhile_prefix q) hle
    exact (List.mem_filter.mp (hsub.mem (List.mem_filter.mpr ⟨ha, hpa⟩))).2
  · intro h
    rw [← List.countP_eq_length_filter, ← List.countP_eq_length_filter]
    exact List.countP_mono_left h

/-- The part between two partition points. -/
theorem Partitioned.drop_take_eq (hp : Partitioned p as) (hq : Partitioned q as)
    (h : ∀ a ∈ as, p a = true → q a = true) :
    (as.take (as.takeWhile q).length).drop (as.takeWhile p).length =
      as.filter fun a => !p a && q a := by
  have hstop : as.take (as.takeWhile q).length = as.filter q := by
    rw [← hq.takeWhile_eq]
    exact (List.prefix_iff_eq_take.mp (List.takeWhile_prefix q)).symm
  -- the partition point of `p` is the same below that of `q`
  have hpq : Partitioned p (as.filter q) := hp.sublist List.filter_sublist
  have hstart : as.takeWhile p = (as.filter q).takeWhile p := by
    rw [hp.takeWhile_eq, hpq.takeWhile_eq, List.filter_filter]
    refine List.filter_congr fun a ha => ?_
    cases hpa : p a with
    | false => rfl
    | true => rw [h a ha hpa]; rfl
  rw [hstop, hstart, hpq.drop_eq, List.filter_filter]

end Partition

section Scan

variable {records : List Record} (lo hi : Time)

theorem partitioned_lt (h : records.Pairwise fun a b => a.time < b.time) :
    Partitioned (fun r : Record => decide (r.time < lo)) records := by
  refine h.imp ?_
  intro a b hab hb
  rw [decide_eq_true_eq] at hb ⊢
  exact UInt64.lt_trans hab hb

theorem partitioned_le (h : records.Pairwise fun a b => a.time < b.time) :
    Partitioned (fun r : Record => decide (r.time ≤ hi)) records := by
  refine h.imp ?_
  intro a b hab hb
  rw [decide_eq_true_eq] at hb ⊢
  exact UInt64.le_trans (UInt64.le_of_lt hab) hb

/-- **A scan is exact where its two ends are in order.** Over records with increasing times it
returns the records of the range, in log order, if and only if no record is later than the end of the
range and earlier than its beginning. -/
theorem scan_exact_iff (w : LogWriter) (h : w.log.records.Pairwise fun a b => a.time < b.time) :
    w.scan lo hi = some (w.log.records.filter fun r => lo ≤ r.time ∧ r.time ≤ hi) ↔
      ¬∃ r ∈ w.log.records, hi < r.time ∧ r.time < lo := by
  have hp := partitioned_lt lo h
  have hq := partitioned_le hi h
  have horder : (∀ r ∈ w.log.records, decide (r.time < lo) = true → decide (r.time ≤ hi) = true) ↔
      ¬∃ r ∈ w.log.records, hi < r.time ∧ r.time < lo := by
    simp only [decide_eq_true_eq]
    grind
  rw [← horder, LogWriter.scan, FileLog.scan]
  constructor
  · intro hscan
    split at hscan
    · next hle => exact (hp.length_le_iff hq).mp hle
    · cases hscan
  · intro hall
    rw [if_pos ((hp.length_le_iff hq).mpr hall), hp.drop_take_eq hq hall]
    congr 1
    refine List.filter_congr fun r _ => ?_
    grind

end Scan

/-- Opening the file of the stray pair and asking for it by time. -/
theorem strayLog_opens : ∃ file w, reference.frames strayLog = .ok file ∧
    reference.openWithMaxBytes sampleRules file none 65536 = .ok w ∧ w.log.records = strayLog ∧
      w.log.records.Pairwise fun a b => a.time < b.time := by
  have hframes := strayLog_frames
  cases hfile : reference.frames strayLog with
  | error e =>
    rw [hfile] at hframes
    cases hframes
  | ok file =>
    rw [hfile] at hframes
    obtain ⟨s, hv⟩ := accepts_iff.mp strayLog_accepts
    have htimes : strayLog.Pairwise fun a b => a.time < b.time := by decide
    exact ⟨file, _, rfl, open_exact sampleRules_hash (of_decide_eq_true hframes) none hv strayLog_reads
      hfile, rfl, htimes⟩

/-- The records at the times 1 and 2, scanned up to the verdict and backwards. -/
theorem strayLog_scan : ∃ file w, reference.frames strayLog = .ok file ∧
    reference.openWithMaxBytes sampleRules file none 65536 = .ok w ∧
      w.scan 1 1 = some (strayLog.take 1) ∧ w.scan 3 2 = some [] := by
  obtain ⟨file, w, hfile, hopen, hrecords, htimes⟩ := strayLog_opens
  refine ⟨file, w, hfile, hopen, ?_, ?_⟩
  · rw [(scan_exact_iff 1 1 w htimes).mpr (by rw [hrecords]; decide), hrecords]
    rfl
  · rw [(scan_exact_iff 3 2 w htimes).mpr (by rw [hrecords]; decide), hrecords]
    rfl

/-- The same log from 2 to 0: the record at time 1 is between the bounds the wrong way round. -/
theorem strayLog_scan_out_of_range : ∃ file w, reference.frames strayLog = .ok file ∧
    reference.openWithMaxBytes sampleRules file none 65536 = .ok w ∧
      (w.log.records.Pairwise fun a b => a.time < b.time) ∧ w.scan 2 0 = none := by
  obtain ⟨file, w, hfile, hopen, hrecords, htimes⟩ := strayLog_opens
  refine ⟨file, w, hfile, hopen, htimes, ?_⟩
  rw [LogWriter.scan, FileLog.scan, hrecords]
  rfl

end Bellbook
