import Bellbook.Log.Frames
import Bellbook.Log.Agreement

/-!
# Crash recovery

A crash during a commit leaves a prefix of the two frames behind the old file, and the intent file
in any state. Opening the directory then gives the handle that the log had before the commit, or the
one the commit would have returned; which of them depends only on whether the frame of the subject
is complete (`crash_recovery`).

* `handleOver` is the handle of a directory that holds exactly some records.
* A commit that finds room for its pair takes one such handle to the next (`persist_handleOver`).
* Opening cuts a torn frame off (`open_frames`), and appends the verdict that the last subject is
  owed (`open_owed`): it is derived from the same records, state and subject as in the commit.
-/

namespace Bellbook

open Std

/-- The handle of a directory that holds exactly these records. -/
def handleOver (file : Bytes) (intent : Option Bytes) (records : List Record) (maxFileBytes : Nat)
    (rulesHash : Hash256) : LogWriter where
  log := fileLogOver file intent records maxFileBytes
  timeSource := .fromLastTime (records.getLast?.map Record.time)
  rulesHash := rulesHash
  recoveryRequired := false

variable {P : Platform} {rules : VerifierRules} {L : List Record} {w w' : LogWriter} {s s' : State}
  {p : Proposal} {c : Prepared} {signer : Option Hash256} {file rest : Bytes} {hash : Hash256}
  {maxFileBytes : Nat}

/-! ## Capacity -/

theorem mapM_encodeRecord {records : List Record} {bodies : List Bytes}
    (h : records.mapM P.encodeRecord = .ok bodies) :
    P.frames records = .ok (bodies.flatMap Platform.frame) := by
  induction records generalizing bodies with
  | nil =>
    cases h
    rfl
  | cons r records ih =>
    simp only [List.mapM_cons, bind_eq_ok, pure, Except.pure, Except.ok.injEq] at h
    obtain ⟨body, hbody, rest, hrest, rfl⟩ := h
    simp [Platform.frames, hbody, ih hrest, bind, Except.bind, pure, Except.pure]

theorem mapM_of_frames {records : List Record} {bytes : Bytes} (h : P.frames records = .ok bytes) :
    ∃ bodies, records.mapM P.encodeRecord = .ok bodies := by
  induction records generalizing bytes with
  | nil => exact ⟨[], rfl⟩
  | cons r records ih =>
    simp only [Platform.frames, bind_eq_ok] at h
    obtain ⟨body, hbody, rest, hrest, -⟩ := h
    obtain ⟨bodies, hbodies⟩ := ih hrest
    refine ⟨body :: bodies, ?_⟩
    simp [List.mapM_cons, hbody, hbodies, bind, Except.bind, pure, Except.pure]

/-- There is room exactly for the frames. -/
theorem ensureCapacityFor_eq_ok {log : FileLog} {records : List Record} {u : Unit} :
    P.ensureCapacityFor log records = .ok u ↔ ∃ bytes, P.frames records = .ok bytes ∧
      log.file.length + bytes.length ≤ log.maxFileBytes ∧
      log.file.length + bytes.length < 18446744073709551616 := by
  have hsum (bodies : List Bytes) : (bodies.map fun b => 4 + b.length).sum =
      (bodies.flatMap Platform.frame).length := by
    rw [List.length_flatMap]
    congr 1
    exact List.map_congr_left fun b _ => (length_frame b).symm
  unfold Platform.ensureCapacityFor
  simp only [bind_eq_ok, refuseIf_eq_ok, not_or, Nat.not_lt, Nat.not_le, hsum]
  constructor
  · rintro ⟨bodies, hbodies, hroom, hword⟩
    exact ⟨_, mapM_encodeRecord hbodies, hroom, hword⟩
  · rintro ⟨bytes, hbytes, hroom, hword⟩
    obtain ⟨bodies, hbodies⟩ := mapM_of_frames hbytes
    rw [mapM_encodeRecord hbodies] at hbytes
    cases hbytes
    exact ⟨bodies, hbodies, hroom, hword⟩

theorem positionIndex_concat (r : Record) :
    positionIndex (L ++ [r]) = (positionIndex L).insert r.id L.length := by
  simp [positionIndex, List.zipIdx_append, List.foldl_append]

/-- An append that has room. -/
theorem append_fileLogOver {r : Record} {body : Bytes} (intent : Option Bytes)
    (hbody : P.encodeRecord r = .ok body)
    (hroom : file.length + (Platform.frame body).length ≤ maxFileBytes)
    (hword : file.length + (Platform.frame body).length < 18446744073709551616) :
    P.append (fileLogOver file intent L maxFileBytes) none r =
      (.ok (), fileLogOver (file ++ Platform.frame body) intent (L ++ [r]) maxFileBytes) := by
  have hcap : P.ensureCapacityFor (fileLogOver file intent L maxFileBytes) [r] = .ok () :=
    ensureCapacityFor_eq_ok.mpr ⟨_, frames_singleton.mpr ⟨body, hbody, rfl⟩, hroom, hword⟩
  unfold Platform.append
  rw [hbody, hcap]
  simp only [fileLogOver, positionIndex_concat]

theorem canonicalJson_intent (intent : CommitIntent) :
    ∃ bytes, P.canonicalJson intent = some bytes := by
  obtain ⟨id, written⟩ := intent
  obtain ⟨text, htext⟩ := Option.isSome_iff_exists.mp (writeJcs_hash_isSome P.formatFinite id)
  rw [← Option.isSome_iff_exists]
  show (Option.map utf8 (writeJcs P.formatFinite
    (.object [("subject_id", toValue id), ("written", .bool written)]))).isSome = true
  cases written <;> simp [writeJcs, writeMembers, htext]

/-! ## Handles -/

/-- What is last in an accepted log is a verdict. -/
theorem Verified.unverdictedTail (h : Verified P rules L s) :
    Platform.unverdictedTail L = none := by
  cases h.run with
  | nil => rfl
  | snoc _ hstep => simp [Platform.unverdictedTail, List.getLast?_append, hstep.verdict]

theorem requireValidLog_eq_ok {u : Unit} :
    P.requireValidLog rules L = .ok u ↔ P.Accepts rules L := by
  simp [Platform.requireValidLog, Platform.Accepts]

theorem Verified.requireValidLog (h : Verified P rules L s) : P.requireValidLog rules L = .ok () :=
  requireValidLog_eq_ok.mpr (accepts_iff.mpr ⟨s, h⟩)

section Open

variable (hrules : P.sha256Canonical rules = some hash) (htorn : P.Torn rest)
  (hfit : (file ++ rest).length ≤ maxFileBytes) (intent : Option Bytes)
include hrules htorn hfit

/-- **Opening a complete log**, whatever torn frame follows it and whatever the intent file is. -/
theorem open_frames (hv : Verified P rules L s) (hread : P.ReadsRecords L)
    (hfile : P.frames L = .ok file) :
    P.openWithMaxBytes rules (file ++ rest) intent maxFileBytes =
      .ok (handleOver file none L maxFileBytes hash) := by
  unfold Platform.openWithMaxBytes
  rw [openFile_frames hread hfile htorn hfit]
  simp [Platform.recover, hv.unverdictedTail, hv.requireValidLog, hrules, orSerde, orError, bind,
    Except.bind, pure, Except.pure, handleOver, fileLogOver, FileLog.lastTime]

/-- **Opening a log that owes a verdict**: it is derived and appended. -/
theorem open_owed {r v : Record} {t : Time} {body : Bytes} (hv : Verified P rules L s)
    (hread : P.ReadsRecords (L ++ [r])) (hfile : P.frames (L ++ [r]) = .ok file)
    (hkind : r.kind ≠ .verdict) (ht : nextTime? r.time = some t)
    (hverdict : P.materializeVerdict r t (P.verifyRecord rules L s r) = some v)
    (hbody : P.encodeRecord v = .ok body)
    (hroom : file.length + (Platform.frame body).length ≤ maxFileBytes)
    (hword : file.length + (Platform.frame body).length < 18446744073709551616)
    (hv' : Verified P rules (L ++ [r, v]) s') :
    P.openWithMaxBytes rules (file ++ rest) intent maxFileBytes =
      .ok (handleOver (file ++ Platform.frame body) none (L ++ [r, v]) maxFileBytes hash) := by
  have htail : Platform.unverdictedTail (L ++ [r]) = some r := by
    simp [Platform.unverdictedTail, hkind]
  have hrecover : P.recover rules (fileLogOver file intent (L ++ [r]) maxFileBytes) =
      .ok (fileLogOver (file ++ Platform.frame body) none (L ++ [r, v]) maxFileBytes) := by
    have happend : P.append (fileLogOver file intent (L ++ [r]) maxFileBytes) none v =
        (.ok (), fileLogOver (file ++ Platform.frame body) intent (L ++ [r, v]) maxFileBytes) := by
      rw [append_fileLogOver intent hbody hroom hword, List.append_assoc]
      rfl
    have hrecords : (fileLogOver file intent (L ++ [r]) maxFileBytes).records = L ++ [r] := rfl
    simp only [Platform.recover, hrecords, htail, List.dropLast_concat, hv.run.build, ht, hverdict,
      orSerde, orError, bind, Except.bind, happend, pure, Except.pure]
    rfl
  unfold Platform.openWithMaxBytes
  rw [openFile_frames hread hfile htorn hfit]
  simp only [bind, Except.bind, hrecover]
  simp only [fileLogOver, htail, List.dropLast_concat, hv.requireValidLog, hv'.requireValidLog,
    hrules, orSerde, orError, pure, Except.pure, FileLog.lastTime, handleOver]

end Open

theorem openWithMaxBytes_fits {intent : Option Bytes}
    (h : P.openWithMaxBytes rules file intent maxFileBytes = .ok w) :
    file.length ≤ maxFileBytes ∧ ∃ hash, P.sha256Canonical rules = some hash := by
  unfold Platform.openWithMaxBytes Platform.openFile at h
  simp only [bind_eq_ok, orSerde_eq_ok, refuseIf_eq_ok, Nat.not_lt] at h
  obtain ⟨_, ⟨_, hfit, -⟩, _, -, _, -, _, -, hash, hhash, -⟩ := h
  exact ⟨hfit, hash, hhash⟩

/-! ## The commit -/

/-- What the checks before the writes say about the rules and the room. -/
theorem prepare_room (h : P.prepare rules signer w s p = .ok c) :
    P.sha256Canonical rules = some w.rulesHash ∧
      P.ensureCapacityFor w.log [c.subject, c.verdictRecord] = .ok () := by
  unfold Platform.prepare Platform.ensureRulesMatch Platform.preparePair at h
  simp only [bind_eq_ok, refuseIf_eq_ok, orSerde_eq_ok, orError_eq_ok, pure, Except.pure,
    Except.ok.injEq, not_not] at h
  obtain ⟨-, -, -, ⟨_, hhash, rfl⟩, -, -, -, -, t, -, signed, -, subject, -, v, -, _, hroom, rfl⟩ := h
  exact ⟨hhash, hroom⟩

theorem commitInner_of_prepare {faults : Faults} (h : P.prepare rules signer w s p = .ok c) :
    P.commitInner rules faults signer w s p = P.persist faults w s c := by
  unfold Platform.commitInner
  rw [h]

/-- The fold of what the writer has judged never fails. -/
theorem applyRecord_total (hfrozen : P.Frozen rules) (hdist : P.SchemasDistinct) {r : Record}
    (hk : r.kind ≠ .verdict) (prior : List Record) :
    ∃ t, P.applyRecord s r (P.verifyRecord rules prior s r) = some t := by
  rw [verifyRecord_eq]
  exact applyRecord_of_recomputed hfrozen hdist hk rfl

/-- **The writes of a commit with room**, none of which fails. -/
theorem persist_handleOver {bs bv : Bytes} {t : State} {intent : Option Bytes}
    (hprep : Prepares P rules (handleOver file intent L maxFileBytes hash) s p c)
    (hbs : P.encodeRecord c.subject = .ok bs) (hbv : P.encodeRecord c.verdictRecord = .ok bv)
    (hroom : file.length + ((Platform.frame bs).length + (Platform.frame bv).length) ≤ maxFileBytes)
    (hword : file.length + ((Platform.frame bs).length + (Platform.frame bv).length) <
      18446744073709551616)
    (hne : c.subject.id ≠ c.verdictRecord.id)
    (hfold : P.applyRecord s c.subject c.verdict = some t) :
    P.persist noFaults (handleOver file intent L maxFileBytes hash) s c =
      ⟨.ok (c.subject.id, c.verdict),
        handleOver (file ++ Platform.frame bs ++ Platform.frame bv) none
          (L ++ [c.subject, c.verdictRecord]) maxFileBytes hash,
        { t with appliedUpTo := c.verdictRecord.time }⟩ := by
  obtain ⟨b₀, hb₀⟩ := canonicalJson_intent (P := P) ⟨c.subject.id, false⟩
  obtain ⟨b₁, hb₁⟩ := canonicalJson_intent (P := P) ⟨c.subject.id, true⟩
  have hrecords : L ++ [c.subject, c.verdictRecord] = L ++ [c.subject] ++ [c.verdictRecord] := by simp
  have hsubject : P.append (fileLogOver file (some b₀) L maxFileBytes) none c.subject =
      (.ok (), fileLogOver (file ++ Platform.frame bs) (some b₀) (L ++ [c.subject]) maxFileBytes) :=
    append_fileLogOver _ hbs (by omega) (by omega)
  have hverdict : P.append (fileLogOver (file ++ Platform.frame bs) (some b₁) (L ++ [c.subject])
        maxFileBytes) none c.verdictRecord =
      (.ok (), fileLogOver (file ++ Platform.frame bs ++ Platform.frame bv) (some b₁)
        (L ++ [c.subject, c.verdictRecord]) maxFileBytes) := by
    rw [hrecords]
    apply append_fileLogOver _ hbv
    · rw [List.length_append]
      omega
    · rw [List.length_append]
      omega
  have hget : (fileLogOver (file ++ Platform.frame bs ++ Platform.frame bv) none
      (L ++ [c.subject, c.verdictRecord]) maxFileBytes).get c.subject.id = some c.subject := by
    have hindex : positionIndex (L ++ [c.subject, c.verdictRecord]) =
        ((positionIndex L).insert c.subject.id L.length).insert c.verdictRecord.id (L.length + 1) := by
      rw [hrecords, positionIndex_concat, positionIndex_concat, List.length_append,
        List.length_singleton]
    have hrec : (fileLogOver (file ++ Platform.frame bs ++ Platform.frame bv) none
        (L ++ [c.subject, c.verdictRecord]) maxFileBytes).records =
        (fileLogOver file none L maxFileBytes).records ++ [c.subject, c.verdictRecord] := rfl
    exact get_subject hrec hindex hne
  have hclock : (handleOver file intent L maxFileBytes hash).timeSource.advance.advance =
      .fromLastTime ((L ++ [c.subject, c.verdictRecord]).getLast?.map Record.time) := by
    obtain ⟨time, htime, hv⟩ := hprep.record
    have hvtime : c.verdictRecord.time = time := by rw [(materializeVerdict_eq_some hv).2.2]
    simp [TimeSource.advance, TimeSource.fromLastTime, saturatingNext, htime, hvtime]
  have hintent : P.writeIntent (fileLogOver file intent L maxFileBytes) none ⟨c.subject.id, false⟩ =
      (.ok (), fileLogOver file (some b₀) L maxFileBytes) := by
    simp [Platform.writeIntent, hb₀, fileLogOver]
  have hwritten : P.writeIntent (fileLogOver (file ++ Platform.frame bs) (some b₀) (L ++ [c.subject])
        maxFileBytes) none ⟨c.subject.id, true⟩ =
      (.ok (), fileLogOver (file ++ Platform.frame bs) (some b₁) (L ++ [c.subject]) maxFileBytes) := by
    simp [Platform.writeIntent, hb₁, fileLogOver]
  have hpair : P.writePair (fileLogOver file (some b₀) L maxFileBytes) noFaults c =
      (.ok (), fileLogOver (file ++ Platform.frame bs ++ Platform.frame bv) none
        (L ++ [c.subject, c.verdictRecord]) maxFileBytes) := by
    simp only [Platform.writePair, noFaults, hsubject, hwritten, hverdict]
    rfl
  have hlog : (handleOver file intent L maxFileBytes hash).log =
      fileLogOver file intent L maxFileBytes := rfl
  simp only [Platform.persist, hlog, noFaults, hintent]
  simp only [hpair, hget, hfold, hclock]
  rfl

/-- **A prepared commit succeeds** when no write fails, and takes one handle to the next. -/
theorem commit_handleOver {intent : Option Bytes} (hfrozen : P.Frozen rules)
    (hprep : P.prepare rules signer (handleOver file intent L maxFileBytes hash) s p = .ok c)
    (hkind : p.kind ≠ .verdict) {M : List Record} (hs : P.HashSound M) (hr : c.subject ∈ M)
    (hv : c.verdictRecord ∈ M) :
    ∃ bs bv t, P.encodeRecord c.subject = .ok bs ∧ P.encodeRecord c.verdictRecord = .ok bv ∧
      file.length + ((Platform.frame bs).length + (Platform.frame bv).length) ≤ maxFileBytes ∧
      file.length + ((Platform.frame bs).length + (Platform.frame bv).length) < 18446744073709551616 ∧
      P.commitInner rules noFaults signer (handleOver file intent L maxFileBytes hash) s p =
        ⟨.ok (c.subject.id, c.verdict),
          handleOver (file ++ Platform.frame bs ++ Platform.frame bv) none
            (L ++ [c.subject, c.verdictRecord]) maxFileBytes hash, t⟩ := by
  have hp := prepare_eq_ok hprep
  obtain ⟨bytes, hbytes, hroom, hword⟩ := ensureCapacityFor_eq_ok.mp (prepare_room hprep).2
  obtain ⟨subjectFrame, verdictFrame, hsf, hvf, rfl⟩ :=
    frames_append (L := [c.subject]) (M := [c.verdictRecord]).mp hbytes
  obtain ⟨bs, hbs, rfl⟩ := frames_singleton.mp hsf
  obtain ⟨bv, hbv, rfl⟩ := frames_singleton.mp hvf
  rw [List.length_append] at hroom hword
  obtain ⟨t, ht⟩ := applyRecord_total (s := s) hfrozen hs.schemasDistinct (hp.kind ▸ hkind) L
  have hpersist := persist_handleOver hp hbs hbv hroom hword (hp.id_ne hkind hs hr hv) (hp.verdict ▸ ht)
  exact ⟨bs, bv, _, hbs, hbv, hroom, hword, (commitInner_of_prepare hprep).trans hpersist⟩

/-! ## Every crash point -/

theorem open_exact (hrules : P.sha256Canonical rules = some hash)
    (hfit : file.length ≤ maxFileBytes) (intent : Option Bytes) (hv : Verified P rules L s)
    (hread : P.ReadsRecords L) (hfile : P.frames L = .ok file) :
    P.openWithMaxBytes rules file intent maxFileBytes =
      .ok (handleOver file none L maxFileBytes hash) := by
  have := open_frames hrules torn_nil (by simpa using hfit) intent hv hread hfile
  rwa [List.append_nil] at this

/-- A commit over an accepted log, and what opening the directory gives at each of its crash
points. -/
theorem commit_recovers {intent₀ : Option Bytes} (hfrozen : P.Frozen rules)
    (hread : P.ReadsVerdicts) (hv : Verified P rules L s) (hfile : P.frames L = .ok file)
    (hprep : P.prepare rules signer (handleOver file intent₀ L maxFileBytes hash) s p = .ok c)
    (hspace : p.space = rules.space) (hkind : p.kind ≠ .verdict)
    (hreads : P.ReadsRecords (L ++ [c.subject, c.verdictRecord]))
    (hs : P.HashSound (L ++ [c.subject, c.verdictRecord])) :
    ∃ bs bv s', P.encodeRecord c.subject = .ok bs ∧ P.encodeRecord c.verdictRecord = .ok bv ∧
      P.commitInner rules noFaults signer (handleOver file intent₀ L maxFileBytes hash) s p =
        ⟨.ok (c.subject.id, c.verdict), handleOver (file ++ Platform.frame bs ++ Platform.frame bv) none
          (L ++ [c.subject, c.verdictRecord]) maxFileBytes hash, s'⟩ ∧
      Verified P rules (L ++ [c.subject, c.verdictRecord]) s' ∧
      ∀ left, left <+: Platform.frame bs ++ Platform.frame bv → ∀ intent,
        P.openWithMaxBytes rules (file ++ left) intent maxFileBytes =
          .ok (if left.length < (Platform.frame bs).length then
              handleOver file none L maxFileBytes hash
            else handleOver (file ++ Platform.frame bs ++ Platform.frame bv) none
              (L ++ [c.subject, c.verdictRecord]) maxFileBytes hash) := by
  have hp := prepare_eq_ok hprep
  have hhash : P.sha256Canonical rules = some hash := (prepare_room hprep).1
  have hreadsL : P.ReadsRecords L := hreads.mono (List.subset_append_left _ _)
  obtain ⟨bs, bv, s', hbs, hbv, hroom, hword, hcommit⟩ :=
    commit_handleOver hfrozen hprep hkind hs (by simp) (by simp)
  obtain ⟨c', -, hc'⟩ := commitInner_eq_ok hcommit
  have hv' := hc'.verified hfrozen hread rfl hv hspace hkind hs
  refine ⟨bs, bv, s', hbs, hbv, hcommit, hv', ?_⟩
  have hframes : P.frames (L ++ [c.subject]) = .ok (file ++ Platform.frame bs) :=
    frames_append.mpr ⟨_, _, hfile, frames_singleton.mpr ⟨bs, hbs, rfl⟩, rfl⟩
  intro left hleft intent
  have hlen := hleft.length_le
  rw [List.length_append] at hlen
  split
  · -- the frame of the subject is torn
    next hlt =>
    have hpre : left <+: Platform.frame bs :=
      List.prefix_of_prefix_length_le hleft (List.prefix_append _ _) hlt.le
    apply open_frames hhash (torn_of_lt (encodeRecord_eq_ok.mp hbs).2 hpre hlt) _ intent hv hreadsL hfile
    rw [List.length_append]
    omega
  · -- the subject is there, and its verdict owed or there
    next hge =>
    obtain ⟨rest, rfl⟩ : Platform.frame bs <+: left :=
      List.prefix_of_prefix_length_le (List.prefix_append _ _) hleft (Nat.not_lt.mp hge)
    have hrest : rest <+: Platform.frame bv := (List.prefix_append_right_inj _).mp hleft
    rw [← List.append_assoc]
    by_cases hlt : rest.length < (Platform.frame bv).length
    · obtain ⟨time, htime, hmat⟩ := hp.record
      refine open_owed hhash (torn_of_lt (encodeRecord_eq_ok.mp hbv).2 hrest hlt) ?_ intent hv
        (hreads.mono ?_) hframes (hp.kind ▸ hkind) ?_ (hp.verdict ▸ hmat) hbv ?_ ?_ hv'
      · simp only [List.length_append] at hlen ⊢
        omega
      · intro r hr
        simp only [List.mem_append, List.mem_cons, List.not_mem_nil] at hr ⊢
        tauto
      · rw [hp.time]
        exact htime
      · rw [List.length_append]
        omega
      · rw [List.length_append]
        omega
    · obtain rfl := hrest.eq_of_length_le (Nat.not_lt.mp hlt)
      have hframes' : P.frames (L ++ [c.subject, c.verdictRecord]) =
          .ok (file ++ Platform.frame bs ++ Platform.frame bv) := by
        rw [List.append_cons]
        exact frames_append.mpr ⟨_, _, hframes, frames_singleton.mpr ⟨bv, hbv, rfl⟩, rfl⟩
      apply open_exact hhash _ intent hv' hreads hframes'
      simp only [List.length_append]
      omega

/-- **Crash recovery restores exactly the interrupted commit or nothing.** A handle `w` was opened
over the frames of an accepted log, and a commit has prepared its pair. Without a crash it returns
the handle `w'`. Whatever prefix of the two frames a crash leaves behind the old file, and whatever
it leaves as intent, opening the directory succeeds; it gives `w` as long as the frame of the
subject is not complete, and `w'` from then on. Opening again changes nothing. -/
theorem crash_recovery (hfrozen : P.Frozen rules) (hread : P.ReadsVerdicts)
    (h : P.Accepts rules L) (hfile : P.frames L = .ok file) {intent₀ : Option Bytes}
    (hopen : P.openWithMaxBytes rules file intent₀ maxFileBytes = .ok w)
    (hprep : P.prepare rules signer w s p = .ok c) (hspace : p.space = rules.space)
    (hkind : p.kind ≠ .verdict) (hreads : P.ReadsRecords (L ++ [c.subject, c.verdictRecord]))
    (hs : P.HashSound (L ++ [c.subject, c.verdictRecord])) :
    ∃ subjectFrame verdictFrame w' s', P.frames [c.subject] = .ok subjectFrame ∧
      P.frames [c.verdictRecord] = .ok verdictFrame ∧
      P.commitInner rules noFaults signer w s p = ⟨.ok (c.subject.id, c.verdict), w', s'⟩ ∧
      w.log.records = L ∧ P.buildStateUnchecked w.log.records = some s ∧
      w'.log.records = L ++ [c.subject, c.verdictRecord] ∧
      P.buildStateUnchecked w'.log.records = some s' ∧
      (∀ left, left <+: subjectFrame ++ verdictFrame → ∀ intent,
        P.openWithMaxBytes rules (file ++ left) intent maxFileBytes =
          .ok (if left.length < subjectFrame.length then w else w')) ∧
      P.openWithMaxBytes rules w.log.file w.log.intent maxFileBytes = .ok w ∧
      P.openWithMaxBytes rules w'.log.file w'.log.intent maxFileBytes = .ok w' := by
  obtain ⟨s₀, hv⟩ := accepts_iff.mp h
  obtain ⟨hfit, hash, hhash⟩ := openWithMaxBytes_fits hopen
  -- the handle the commit started from
  obtain rfl : handleOver file none L maxFileBytes hash = w := by
    rw [open_exact hhash hfit intent₀ hv (hreads.mono (List.subset_append_left _ _)) hfile] at hopen
    exact Except.ok.inj hopen
  obtain rfl : s₀ = s := Option.some.inj (hv.run.build.symm.trans (prepare_eq_ok hprep).state)
  obtain ⟨bs, bv, s', hbs, hbv, hcommit, hv', hcrash⟩ :=
    commit_recovers hfrozen hread hv hfile hprep hspace hkind hreads hs
  refine ⟨_, _, _, _, frames_singleton.mpr ⟨bs, hbs, rfl⟩, frames_singleton.mpr ⟨bv, hbv, rfl⟩, hcommit,
    rfl, hv.run.build, rfl, hv'.run.build, hcrash, ?_, ?_⟩
  · have hnone := hcrash [] (List.nil_prefix) none
    rw [List.append_nil, if_pos (by rw [length_frame]; simp)] at hnone
    exact hnone
  · have hall := hcrash _ (List.prefix_refl _) none
    rw [← List.append_assoc, if_neg (by simp)] at hall
    exact hall

theorem strayProposal_prepares : ∃ c,
    reference.prepare sampleRules none sampleHandle State.empty (strayProposal 1) = .ok c ∧
      [c.subject, c.verdictRecord] = strayLog := by
  rw [prepare_eq (s := State.empty) rfl sampleRules_hash rfl]
  have hpair : ((reference.preparePair sampleRules none sampleHandle State.empty
      (strayProposal 1)).toOption.map fun c => [c.subject, c.verdictRecord]) = some strayLog := by
    decide +kernel
  cases hc : reference.preparePair sampleRules none sampleHandle State.empty (strayProposal 1) with
  | error e =>
    rw [hc] at hpair
    cases hpair
  | ok c =>
    rw [hc] at hpair
    exact ⟨c, rfl, Option.some.inj hpair⟩

theorem strayLog_reads : reference.ReadsRecords strayLog := by
  have hall : strayLog.all (fun r =>
      decide ((reference.canonicalJson r).bind (reference.decode Record) = some r)) = true := by
    decide +kernel
  intro r hr bytes hbytes
  have := List.all_eq_true.mp hall r hr
  rwa [decide_eq_true_eq, hbytes, Option.bind_some] at this

/-- The stray commit to the empty sample directory, crashed anywhere. -/
theorem strayProposal_recovers : ∃ subjectFrame verdictFrame w',
    reference.frames strayLog = .ok (subjectFrame ++ verdictFrame) ∧ w'.log.records = strayLog ∧
      ∀ left, left <+: subjectFrame ++ verdictFrame → ∀ intent,
        reference.openWithMaxBytes sampleRules left intent 65536 =
          .ok (if left.length < subjectFrame.length then sampleHandle else w') := by
  obtain ⟨c, hc, hlog⟩ := strayProposal_prepares
  have hreads : reference.ReadsRecords ([] ++ [c.subject, c.verdictRecord]) := by
    rw [List.nil_append, hlog]
    exact strayLog_reads
  have hs : reference.HashSound ([] ++ [c.subject, c.verdictRecord]) := by
    rw [List.nil_append, hlog]
    exact strayLog_hashSound
  obtain ⟨bs, bv, w', -, hbs, hbv, -, -, -, hrec, -, hopen, -⟩ := crash_recovery sampleRules_frozen
    reference_readsVerdicts (L := []) rfl rfl sampleHandle_open hc rfl (by decide) hreads hs
  rw [List.nil_append, hlog] at hrec
  refine ⟨bs, bv, w', ?_, hrec, hopen⟩
  rw [← hlog]
  exact frames_append.mpr ⟨_, _, hbs, hbv, rfl⟩

end Bellbook
