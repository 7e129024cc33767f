import Bellbook.Lib.FixedWidth
import Bellbook.Receipt.Attestation
import Mathlib.Tactic.IntervalCases

/-!
# Timestamps are instants (`checkpoint.rs`)

* `CivilTime` is a date of the Gregorian calendar with a time of day, no leap seconds; its `text` is the
  fixed-width spelling, and `seconds` counts from the start of year 0.
* The checker accepts exactly these texts, so a `CanonicalUtcTimestamp` is a `CivilTime`
  (`isCanonicalRfc3339Utc_iff`).
* Fixed width makes the derived order of the texts the order of the instants (`bytes_lt_iff`).
-/

namespace Bellbook

open FixedWidth

/-! ## Calendar -/

/-- The month of index `i`, counted from 0. -/
def monthLength (year i : Nat) : Nat := daysInMonth year (i + 1)

def yearLength (year : Nat) : Nat := before (monthLength year) 12

/-- A date of the calendar and a time of day. -/
@[ext]
structure CivilTime where
  year : Nat
  month : Nat
  day : Nat
  hour : Nat
  minute : Nat
  second : Nat
  year_le : year ≤ 9999
  month_pos : 1 ≤ month
  month_le : month ≤ 12
  day_pos : 1 ≤ day
  day_le : day ≤ daysInMonth year month
  hour_le : hour ≤ 23
  minute_le : minute ≤ 59
  second_le : second ≤ 59

theorem daysInMonth_le (year month : Nat) : daysInMonth year month ≤ 31 := by
  unfold daysInMonth
  dsimp only
  split_ifs <;> omega

namespace CivilTime

variable (t u : CivilTime)

/-- The days since the start of the year. -/
def dayOfYear : Nat := before (monthLength t.year) (t.month - 1) + (t.day - 1)

/-- The seconds since the start of the day. -/
def secondOfDay : Nat := t.hour * 3600 + t.minute * 60 + t.second

/-- The seconds since the start of year 0. -/
def seconds : Nat := (before yearLength t.year + t.dayOfYear) * 86400 + t.secondOfDay

theorem day_index_lt : t.day - 1 < monthLength t.year (t.month - 1) := by
  have := t.day_pos
  have := t.day_le
  rw [monthLength, Nat.sub_add_cancel t.month_pos]
  omega

theorem dayOfYear_lt : t.dayOfYear < yearLength t.year := by
  have hday := t.day_index_lt
  have hmonth : t.month - 1 + 1 ≤ 12 := by
    have := t.month_pos
    have := t.month_le
    omega
  have hnext := before_mono (monthLength t.year) hmonth
  rw [before_succ] at hnext
  rw [dayOfYear, yearLength]
  omega

theorem secondOfDay_lt : t.secondOfDay < 86400 := by
  have := t.hour_le
  have := t.minute_le
  have := t.second_le
  rw [secondOfDay]
  omega

variable {t u}

/-- Instants are ordered field by field. -/
theorem seconds_lt_iff : t.seconds < u.seconds ↔ t.year < u.year ∨ t.year = u.year ∧
    (t.month < u.month ∨ t.month = u.month ∧ (t.day < u.day ∨ t.day = u.day ∧
      (t.hour < u.hour ∨ t.hour = u.hour ∧ (t.minute < u.minute ∨ t.minute = u.minute ∧
        t.second < u.second)))) := by
  have hdays : before yearLength t.year + t.dayOfYear < before yearLength u.year + u.dayOfYear ↔
      t.year < u.year ∨ t.year = u.year ∧ (t.month < u.month ∨ t.month = u.month ∧ t.day < u.day) := by
    rw [before_add_lt_iff t.dayOfYear_lt u.dayOfYear_lt]
    apply or_congr_right
    apply and_congr_right
    intro hyear
    have hday := u.day_index_lt
    rw [← hyear] at hday
    rw [dayOfYear, dayOfYear, ← hyear, before_add_lt_iff t.day_index_lt hday]
    have := t.month_pos
    have := u.month_pos
    have := t.day_pos
    have := u.day_pos
    omega
  have hdays' : before yearLength t.year + t.dayOfYear = before yearLength u.year + u.dayOfYear ↔
      t.year = u.year ∧ t.month = u.month ∧ t.day = u.day := by
    have hflip : before yearLength u.year + u.dayOfYear < before yearLength t.year + t.dayOfYear ↔
        u.year < t.year ∨ u.year = t.year ∧ (u.month < t.month ∨ u.month = t.month ∧ u.day < t.day) := by
      rw [before_add_lt_iff u.dayOfYear_lt t.dayOfYear_lt]
      apply or_congr_right
      apply and_congr_right
      intro hyear
      have hday := t.day_index_lt
      rw [← hyear] at hday
      rw [dayOfYear, dayOfYear, ← hyear, before_add_lt_iff u.day_index_lt hday]
      have := t.month_pos
      have := u.month_pos
      have := t.day_pos
      have := u.day_pos
      omega
    omega
  have hsecond := t.secondOfDay_lt
  have hsecond' := u.secondOfDay_lt
  have htime : t.secondOfDay < u.secondOfDay ↔ t.hour < u.hour ∨ t.hour = u.hour ∧
      (t.minute < u.minute ∨ t.minute = u.minute ∧ t.second < u.second) := by
    have := t.minute_le
    have := u.minute_le
    have := t.second_le
    have := u.second_le
    rw [secondOfDay, secondOfDay]
    omega
  rw [seconds, seconds]
  omega

end CivilTime

/-! ## Spelling -/

/-- The ASCII digit. -/
def digitByte (d : Nat) : UInt8 := UInt8.ofNat (48 + d)

/-- `n` decimal digits of a number. -/
def spell (n x : Nat) : Bytes := (digits 10 n x).map digitByte

@[simp] theorem length_spell (n x : Nat) : (spell n x).length = n := by simp [spell]

theorem digitByte_lt_iff : ∀ i < 10, ∀ j < 10, digitByte i < digitByte j ↔ i < j := by decide

theorem digitByte_inj : ∀ i < 10, ∀ j < 10, digitByte i = digitByte j → i = j := by decide

theorem isDigit_iff {b : UInt8} : isDigit b = true ↔ ∃ d < 10, digitByte d = b := by
  constructor
  · intro h
    simp only [isDigit, Bool.and_eq_true, decide_eq_true_eq, UInt8.le_iff_toNat_le] at h
    have hlo : 48 ≤ b.toNat := h.1
    have hhi : b.toNat ≤ 57 := h.2
    refine ⟨b.toNat - 48, by omega, ?_⟩
    rw [digitByte, Nat.add_sub_cancel' hlo, UInt8.ofNat_toNat]
  · rintro ⟨d, hd, rfl⟩
    have hall : ∀ d < 10, isDigit (digitByte d) = true := by decide
    exact hall d hd

theorem toNat_digitByte {d : Nat} (h : d < 10) : (digitByte d).toNat - 48 = d := by
  have hall : ∀ d < 10, (digitByte d).toNat - 48 = d := by decide
  exact hall d h

theorem spell_lt_iff {n x y : Nat} (hx : x < 10 ^ n) (hy : y < 10 ^ n) :
    spell n x < spell n y ↔ x < y := by
  have hdx : ∀ d ∈ digits 10 n x, d < 10 := fun d => digits_lt (by omega)
  have hdy : ∀ d ∈ digits 10 n y, d < 10 := fun d => digits_lt (by omega)
  rw [spell, spell, map_lt_map_iff hdx hdy digitByte_lt_iff digitByte_inj,
    lt_iff_value_lt (by simp) hdx hdy, value_digits_of_lt hx, value_digits_of_lt hy]

theorem spell_inj {n x y : Nat} (hx : x < 10 ^ n) (hy : y < 10 ^ n) (h : spell n x = spell n y) :
    x = y := by
  have hlt := spell_lt_iff hx hy
  have hgt := spell_lt_iff hy hx
  rw [h] at hlt hgt
  have hirr : ¬spell n y < spell n y := List.lt_irrefl _
  rcases Nat.lt_trichotomy x y with hxy | heq | hyx
  · exact absurd (hlt.mpr hxy) hirr
  · exact heq
  · exact absurd (hgt.mpr hyx) hirr

/-- The number at a run of digits. -/
theorem foldl_spell {n x : Nat} (hx : x < 10 ^ n) :
    (spell n x).foldl (fun m d => m * 10 + (d.toNat - 48)) 0 = x := by
  have hfold : ∀ (ds : List Nat) (m : Nat), (∀ d ∈ ds, d < 10) →
      (ds.map digitByte).foldl (fun m d => m * 10 + (d.toNat - 48)) m =
        ds.foldl (fun m d => m * 10 + d) m := by
    intro ds
    induction ds with
    | nil => simp
    | cons d ds ih =>
      intro m h
      rw [List.map_cons, List.foldl_cons, List.foldl_cons, toNat_digitByte (h d List.mem_cons_self)]
      exact ih _ fun e he => h e (List.mem_cons_of_mem d he)
  rw [spell, hfold _ _ fun d => digits_lt (by omega)]
  exact value_digits_of_lt hx

/-- A run of digits spells the number at it. -/
theorem spell_foldl {bytes : Bytes} (h : ∀ b ∈ bytes, isDigit b = true) :
    spell bytes.length (bytes.foldl (fun m d => m * 10 + (d.toNat - 48)) 0) = bytes ∧
      bytes.foldl (fun m d => m * 10 + (d.toNat - 48)) 0 < 10 ^ bytes.length := by
  obtain ⟨ds, hds, rfl⟩ : ∃ ds : List Nat, (∀ d ∈ ds, d < 10) ∧ ds.map digitByte = bytes := by
    induction bytes with
    | nil => exact ⟨[], by simp⟩
    | cons b bytes ih =>
      obtain ⟨ds, hds, rfl⟩ := ih fun c hc => h c (List.mem_cons_of_mem b hc)
      obtain ⟨d, hd, rfl⟩ := isDigit_iff.mp (h b List.mem_cons_self)
      refine ⟨d :: ds, ?_, rfl⟩
      intro e he
      rcases List.mem_cons.mp he with rfl | he
      · exact hd
      · exact hds e he
  have hdigits : digits 10 ds.length (value 10 ds) = ds := digits_value hds
  have hspell : spell ds.length (value 10 ds) = ds.map digitByte := by rw [spell, hdigits]
  have hvalue := value_lt hds
  rw [← hspell, foldl_spell hvalue, length_spell]
  exact ⟨rfl, hvalue⟩

namespace CivilTime

/-- `YYYY-MM-DDTHH:MM:SSZ`. -/
def bytes (t : CivilTime) : Bytes :=
  spell 4 t.year ++ (45 :: (spell 2 t.month ++ (45 :: (spell 2 t.day ++ (84 :: (spell 2 t.hour ++
    (58 :: (spell 2 t.minute ++ (58 :: (spell 2 t.second ++ [90]))))))))))

def text (t : CivilTime) : String := String.ofList (t.bytes.map fun b => Char.ofNat b.toNat)

end CivilTime

/-- The fields of 20 bytes. -/
theorem exists_bytes {b : Bytes} (h : b.length = 20) : ∃ b0 b1 b2 b3 b4 b5 b6 b7 b8 b9 b10 b11 b12 b13 b14
    b15 b16 b17 b18 b19, b = [b0, b1, b2, b3, b4, b5, b6, b7, b8, b9, b10, b11, b12, b13, b14, b15, b16,
      b17, b18, b19] := by
  refine ⟨b[0], b[1], b[2], b[3], b[4], b[5], b[6], b[7], b[8], b[9], b[10], b[11], b[12], b[13], b[14],
    b[15], b[16], b[17], b[18], b[19], ?_⟩
  apply List.ext_getElem
  · exact h
  · intro i hi hi'
    rw [h] at hi
    interval_cases i <;> rfl

theorem asciiText_map {bytes : Bytes} (h : ∀ b ∈ bytes, b.toNat < 128) :
    asciiText bytes = some (bytes.map fun b => Char.ofNat b.toNat) := by
  induction bytes with
  | nil => rfl
  | cons b bytes ih =>
    rw [asciiText, if_pos (h b List.mem_cons_self), ih fun c hc => h c (List.mem_cons_of_mem b hc)]
    rfl

theorem CivilTime.ascii (t : CivilTime) : ∀ b ∈ t.bytes, b.toNat < 128 := by
  have hspell : ∀ n x, ∀ b ∈ spell n x, b.toNat < 128 := by
    intro n x b hb
    obtain ⟨d, hd, rfl⟩ := List.mem_map.mp hb
    have hall : ∀ d < 10, (digitByte d).toNat < 128 := by decide
    exact hall d (digits_lt (by omega) hd)
  intro b hb
  simp only [bytes, List.mem_append, List.mem_cons, List.not_mem_nil, or_false] at hb
  rcases hb with hb | rfl | hb | rfl | hb | rfl | hb | rfl | hb | rfl | hb | rfl <;>
    first
    | exact hspell _ _ b hb
    | decide

theorem CivilTime.utf8_text (t : CivilTime) : utf8 t.text.toList = t.bytes := by
  rw [text, String.toList_ofList]
  exact utf8_of_asciiText (asciiText_map t.ascii)

/-- The checker on bytes. -/
def isCanonicalBytes (b : Bytes) : Bool :=
  b.length = 20 && b[4]? = some 45 && b[7]? = some 45 && b[10]? = some 84 &&
  b[13]? = some 58 && b[16]? = some 58 && b[19]? = some 90 &&
  digitPositions.all (fun i => b[i]?.any isDigit) &&
  (1 ≤ digitsAt b 5 7 && digitsAt b 5 7 ≤ 12) && digitsAt b 11 13 ≤ 23 && digitsAt b 14 16 ≤ 59 &&
  digitsAt b 17 19 ≤ 59 && (1 ≤ digitsAt b 8 10 && digitsAt b 8 10 ≤ daysInMonth (digitsAt b 0 4) (digitsAt b 5 7))

theorem isCanonicalBytes_bytes (t : CivilTime) : isCanonicalBytes t.bytes = true := by
  have hyear : digitsAt t.bytes 0 4 = t.year := foldl_spell (n := 4) (by have := t.year_le; omega)
  have hmonth : digitsAt t.bytes 5 7 = t.month := foldl_spell (n := 2) (by have := t.month_le; omega)
  have hday : digitsAt t.bytes 8 10 = t.day :=
    foldl_spell (n := 2) (by have := t.day_le.trans (daysInMonth_le _ _); omega)
  have hhour : digitsAt t.bytes 11 13 = t.hour := foldl_spell (n := 2) (by have := t.hour_le; omega)
  have hminute : digitsAt t.bytes 14 16 = t.minute := foldl_spell (n := 2) (by have := t.minute_le; omega)
  have hsecond : digitsAt t.bytes 17 19 = t.second := foldl_spell (n := 2) (by have := t.second_le; omega)
  have hdigit : ∀ x, isDigit (digitByte (x % 10)) = true := by
    intro x
    exact isDigit_iff.mpr ⟨_, Nat.mod_lt _ (by omega), rfl⟩
  simp only [isCanonicalBytes, hyear, hmonth, hday, hhour, hminute, hsecond, t.month_pos, t.month_le,
    t.day_pos, t.day_le, t.hour_le, t.minute_le, t.second_le]
  simp [CivilTime.bytes, spell, digits, digitPositions, hdigit]

/-- Accepted bytes are the spelling of a civil time. -/
theorem exists_civilTime {b : Bytes} (h : isCanonicalBytes b = true) : ∃ t : CivilTime, t.bytes = b := by
  simp only [isCanonicalBytes, Bool.and_eq_true, decide_eq_true_eq] at h
  obtain ⟨⟨⟨⟨⟨⟨⟨⟨⟨⟨⟨⟨hlen, h4⟩, h7⟩, h10⟩, h13⟩, h16⟩, h19⟩, hdigits⟩, hmonth⟩, hhour⟩, hminute⟩, hsecond⟩,
    hday⟩ := h
  obtain ⟨b0, b1, b2, b3, b4, b5, b6, b7, b8, b9, b10, b11, b12, b13, b14, b15, b16, b17, b18, b19, rfl⟩ :=
    exists_bytes hlen
  simp only [digitPositions, List.all_cons, List.getElem?_cons_zero, List.getElem?_cons_succ, Option.any_some,
    Bool.and_eq_true, List.all_nil, and_true, Option.some.injEq] at hdigits h4 h7 h10 h13 h16 h19
  subst h4 h7 h10 h13 h16 h19
  obtain ⟨h0, h1, h2, h3, h5, h6, h8, h9, h11, h12, h14, h15, h17, h18⟩ := hdigits
  have hfour : ∀ b ∈ [b0, b1, b2, b3], isDigit b = true := by simp [h0, h1, h2, h3]
  have htwo : ∀ {c d}, isDigit c = true → isDigit d = true → ∀ b ∈ [c, d], isDigit b = true := by
    intro c d hc hd
    simp [hc, hd]
  obtain ⟨hyear, hyear_lt⟩ := spell_foldl hfour
  have hmonth' := (spell_foldl (htwo h5 h6)).1
  have hday' := (spell_foldl (htwo h8 h9)).1
  have hhour' := (spell_foldl (htwo h11 h12)).1
  have hminute' := (spell_foldl (htwo h14 h15)).1
  have hsecond' := (spell_foldl (htwo h17 h18)).1
  simp only [digitsAt, List.drop_succ_cons, List.drop_zero, List.take_succ_cons, List.take_zero, Nat.reduceSub]
    at hmonth hday hhour hminute hsecond
  -- each field is the number its digits spell
  generalize [b0, b1, b2, b3].foldl (fun m e => m * 10 + (e.toNat - 48)) 0 = year at *
  generalize [b5, b6].foldl (fun m e => m * 10 + (e.toNat - 48)) 0 = month at *
  generalize [b8, b9].foldl (fun m e => m * 10 + (e.toNat - 48)) 0 = day at *
  generalize [b11, b12].foldl (fun m e => m * 10 + (e.toNat - 48)) 0 = hour at *
  generalize [b14, b15].foldl (fun m e => m * 10 + (e.toNat - 48)) 0 = minute at *
  generalize [b17, b18].foldl (fun m e => m * 10 + (e.toNat - 48)) 0 = second at *
  have hle : year ≤ 9999 := by
    simp only [List.length_cons, List.length_nil] at hyear_lt
    omega
  refine ⟨⟨year, month, day, hour, minute, second, hle, hmonth.1, hmonth.2, hday.1, hday.2, hhour, hminute,
    hsecond⟩, ?_⟩
  simp only [List.length_cons, List.length_nil, Nat.reduceAdd] at hyear hmonth' hday' hhour' hminute' hsecond'
  simp only [CivilTime.bytes, hyear, hmonth', hday', hhour', hminute', hsecond', List.cons_append, List.nil_append]

namespace CivilTime

variable {t u : CivilTime}

/-- A field of two digits is compared before what follows its separator. -/
theorem two_lt_iff {x y : Nat} {c : UInt8} {xs ys : Bytes} (hx : x < 100) (hy : y < 100) :
    spell 2 x ++ (c :: xs) < spell 2 y ++ (c :: ys) ↔ x < y ∨ x = y ∧ xs < ys := by
  have heq : spell 2 x = spell 2 y ↔ x = y := ⟨spell_inj hx hy, congrArg _⟩
  have hirr : ¬c < c := UInt8.lt_irrefl c
  rw [append_lt_append_iff (by simp), spell_lt_iff hx hy, heq, List.cons_lt_cons_iff]
  tauto

/-- Byte order is the order of the instants. -/
theorem bytes_lt_iff : t.bytes < u.bytes ↔ t.seconds < u.seconds := by
  have hday : ∀ t : CivilTime, t.day < 100 := by
    intro t
    have := t.day_le
    have := daysInMonth_le t.year t.month
    omega
  have hirr : ¬([90] : Bytes) < [90] := List.lt_irrefl _
  have hyear : spell 4 t.year = spell 4 u.year ↔ t.year = u.year :=
    ⟨spell_inj (by have := t.year_le; omega) (by have := u.year_le; omega), congrArg _⟩
  have hsep : ∀ {c : UInt8} {xs ys : Bytes}, c :: xs < c :: ys ↔ xs < ys := by
    intro c xs ys
    have hc : ¬c < c := UInt8.lt_irrefl c
    rw [List.cons_lt_cons_iff]
    tauto
  rw [bytes, bytes, append_lt_append_iff (by simp), hyear, hsep,
    spell_lt_iff (by have := t.year_le; omega) (by have := u.year_le; omega),
    two_lt_iff (by have := t.month_le; omega) (by have := u.month_le; omega),
    two_lt_iff (hday t) (hday u),
    two_lt_iff (by have := t.hour_le; omega) (by have := u.hour_le; omega),
    two_lt_iff (by have := t.minute_le; omega) (by have := u.minute_le; omega),
    two_lt_iff (by have := t.second_le; omega) (by have := u.second_le; omega), seconds_lt_iff]
  tauto

theorem eq_of_seconds_eq (h : t.seconds = u.seconds) : t = u := by
  have hlt := seconds_lt_iff (t := t) (u := u)
  have hgt := seconds_lt_iff (t := u) (u := t)
  apply CivilTime.ext <;> omega

theorem text_inj (h : t.text = u.text) : t = u := by
  have hbytes : t.bytes = u.bytes := by rw [← utf8_text, ← utf8_text, h]
  have hirr : ¬u.bytes < u.bytes := List.lt_irrefl _
  have hlt := (not_congr (bytes_lt_iff (t := t) (u := u))).mp (hbytes ▸ hirr)
  have hgt := (not_congr (bytes_lt_iff (t := u) (u := t))).mp (hbytes ▸ hirr)
  exact eq_of_seconds_eq (by omega)

end CivilTime

theorem isCanonicalRfc3339Utc_iff {s : String} :
    isCanonicalRfc3339Utc s = true ↔ ∃ t : CivilTime, t.text = s := by
  constructor
  · intro h
    obtain ⟨t, ht⟩ := exists_civilTime h
    rw [← t.utf8_text] at ht
    exact ⟨t, String.toList_inj.mp (utf8_inj ht)⟩
  · rintro ⟨t, rfl⟩
    show isCanonicalBytes (utf8 t.text.toList) = true
    rw [t.utf8_text]
    exact isCanonicalBytes_bytes t

/-- The derived order of the texts. -/
instance : LT CanonicalUtcTimestamp := ⟨fun a b => utf8 a.text.toList < utf8 b.text.toList⟩

/-- **A timestamp is an instant.** The strings the checker accepts are the spellings of the civil times,
one for each, and the derived order of two timestamps is the order of their instants. -/
theorem timestamps_are_instants :
    (∀ s, isCanonicalRfc3339Utc s = true ↔ ∃ t : CivilTime, t.text = s) ∧
      ∀ a b : CanonicalUtcTimestamp, ∃! p : CivilTime × CivilTime,
        p.1.text = a.text ∧ p.2.text = b.text ∧ (a < b ↔ p.1.seconds < p.2.seconds) ∧
          (a = b ↔ p.1.seconds = p.2.seconds) := by
  refine ⟨fun s => isCanonicalRfc3339Utc_iff, ?_⟩
  intro a b
  obtain ⟨t, ht⟩ := isCanonicalRfc3339Utc_iff.mp a.canonical
  obtain ⟨u, hu⟩ := isCanonicalRfc3339Utc_iff.mp b.canonical
  refine ⟨(t, u), ⟨ht, hu, ?_, ?_⟩, ?_⟩
  · show utf8 a.text.toList < utf8 b.text.toList ↔ _
    rw [← ht, ← hu, t.utf8_text, u.utf8_text]
    exact CivilTime.bytes_lt_iff
  · constructor
    · intro heq
      rw [CivilTime.text_inj (ht.trans (heq ▸ hu.symm))]
    · intro heq
      obtain ⟨a, ha⟩ := a
      obtain ⟨b, hb⟩ := b
      obtain rfl : t = u := CivilTime.eq_of_seconds_eq heq
      obtain rfl : a = b := ht.symm.trans hu
      rfl
  · rintro ⟨t', u'⟩ ⟨ht', hu', -⟩
    exact Prod.ext (CivilTime.text_inj (ht'.trans ht.symm)) (CivilTime.text_inj (hu'.trans hu.symm))

/-! ## Anchored bytes -/

instance : Serialize CanonicalUtcTimestamp := ⟨fun t => toValue t.text⟩

instance : Deserialize CanonicalUtcTimestamp where
  fromValue v := do
    let text ← (fromValue v : Option String)
    if h : isCanonicalRfc3339Utc text = true then some ⟨text, h⟩ else none

instance : RoundTrips CanonicalUtcTimestamp where
  fromValue_canon t := by
    show (fromValue (toValue t.text).canon : Option String).bind _ = _
    rw [fromValue_canon, Option.bind_some, dif_pos t.canonical]

instance : LawfulSerialize CanonicalUtcTimestamp where
  floatFree t := LawfulSerialize.floatFree t.text
  canon_inj {a b} h := by
    obtain ⟨a, ha⟩ := a
    obtain ⟨b, hb⟩ := b
    obtain rfl : a = b := LawfulSerialize.canon_inj h
    rfl

def attestationMembers (a : HeadAttestation) : List (String × Json) :=
  [("head_hash", toValue a.headHash), ("record_count", toValue a.recordCount),
    ("spec_version", toValue a.specVersion), ("timestamp", toValue a.timestamp)]

instance : Serialize HeadAttestation := ⟨fun a => .object (attestationMembers a)⟩

instance : Deserialize HeadAttestation where
  fromValue v := do
    let f ← structFields true ["head_hash", "record_count", "spec_version", "timestamp"] v
    return {
      headHash := ← f.required "head_hash"
      recordCount := (← (f.required "record_count" : Option UInt64)).toNat
      specVersion := ← f.required "spec_version"
      timestamp := ← f.required "timestamp" }

instance : LawfulSerialize HeadAttestation where
  floatFree a := ⟨LawfulSerialize.floatFree a.headHash, LawfulSerialize.floatFree a.recordCount,
    LawfulSerialize.floatFree a.specVersion, LawfulSerialize.floatFree a.timestamp, trivial⟩
  canon_inj {a b} h := by
    have field {α : Type} [Serialize α] [LawfulSerialize α] (k : String) {x y : α}
        (hx : (k, toValue x) ∈ attestationMembers a) (hy : (k, toValue y) ∈ attestationMembers b) : x = y :=
      LawfulSerialize.canon_inj (canon_field_eq h hx hy (by simp [attestationMembers]))
    have hhead : a.headHash = b.headHash := field "head_hash" (by simp [attestationMembers])
      (by simp [attestationMembers])
    have hcount : a.recordCount = b.recordCount := field "record_count" (by simp [attestationMembers])
      (by simp [attestationMembers])
    have hspec : a.specVersion = b.specVersion := field "spec_version" (by simp [attestationMembers])
      (by simp [attestationMembers])
    have htime : a.timestamp = b.timestamp := field "timestamp" (by simp [attestationMembers])
      (by simp [attestationMembers])
    cases a
    cases b
    rw [HeadAttestation.mk.injEq]
    exact ⟨hhead, hcount, hspec, htime⟩

theorem fromValue_attestation {a : HeadAttestation} (hcount : a.recordCount < 2 ^ 64) :
    fromValue (toValue a).canon = some a := by
  have hn : ((attestationMembers a).map Prod.fst).Nodup := by simp [attestationMembers]
  have hf : structFields true ["head_hash", "record_count", "spec_version", "timestamp"]
      (toValue a).canon = some (canonFields (attestationMembers a)) :=
    structFields_canon hn (by simp [attestationMembers])
  have hword : (UInt64.ofNat a.recordCount).toNat = a.recordCount := UInt64.toNat_ofNat_of_lt' hcount
  have hrecords : ("record_count", toValue (UInt64.ofNat a.recordCount)) ∈ attestationMembers a := by
    rw [show toValue (UInt64.ofNat a.recordCount) = toValue (UInt64.ofNat a.recordCount).toNat from rfl, hword]
    simp [attestationMembers]
  show (structFields true _ _).bind _ = _
  rw [hf, Option.bind_some, required_canon (a := a.headHash) hn (by simp [attestationMembers]),
    required_canon hn hrecords,
    required_canon (a := a.specVersion) hn (by simp [attestationMembers]),
    required_canon (a := a.timestamp) hn (by simp [attestationMembers])]
  show some (HeadAttestation.mk a.headHash (UInt64.ofNat a.recordCount).toNat a.specVersion a.timestamp) = _
  rw [hword]

/-- An attestation has bytes when its record count is a safe integer. -/
theorem encode_attestation_isSome {P : Platform} {a : HeadAttestation} :
    (P.encode a).isSome = true ↔ a.recordCount ≤ maxSafeInteger := by
  have hcount : (writeJcs P.formatFinite (toValue a.recordCount)).isSome = true ↔
      a.recordCount ≤ maxSafeInteger := by
    show (writeNumber P.formatFinite (.int a.recordCount)).isSome = true ↔ _
    simp only [writeNumber, Int.natAbs_natCast]
    split <;> simp_all
  have htime : (writeJcs P.formatFinite (toValue a.timestamp)).isSome = true :=
    writeJcs_string_isSome P.formatFinite a.timestamp.text
  rw [Platform.encode, Platform.canonicalJson, Option.isSome_map]
  show (writeJcs P.formatFinite (.object (attestationMembers a))).isSome = true ↔ _
  simp [writeJcs_object_isSome, attestationMembers, writeJcs_hash_isSome, writeJcs_string_isSome, htime, hcount]

/-- `serde_json` reads the canonical text of an attestation back as the tree it was written from. -/
def Platform.ReadsAttestations (P : Platform) : Prop :=
  ∀ (a : HeadAttestation) (bytes : Bytes), P.encode a = some bytes → P.readJson bytes = some (toValue a).canon

variable {P : Platform} {rules rules' : VerifierRules} {L M : List Record} {timestamp timestamp' : String}
  {a a' : HeadAttestation} {bytes : Bytes}

theorem headAttestation_timestamp (ha : P.headAttestation L timestamp = some a) :
    a.timestamp.text = timestamp := by
  unfold Platform.headAttestation at ha
  split at ha
  · cases ha
    rfl
  · cases ha

/-- **Anchored bytes name one history at one instant.** The published bytes of an attestation decode to it,
and an attestation of an accepted log has these bytes only if the log is the attested one and the
timestamp is the same. -/
theorem anchored_attestation (hread : P.ReadsAttestations) (hL : P.Accepts rules L)
    (ha : P.headAttestation L timestamp = some a) (hbytes : P.encode a = some bytes) :
    P.decode HeadAttestation bytes = some a ∧
      ∀ rules' M timestamp' a', P.Accepts rules' M → P.CollisionFree (P.headBytes L M) →
        P.headAttestation M timestamp' = some a' →
        (P.encode a' = some bytes ↔ L = M ∧ timestamp = timestamp') := by
  have hsafe := encode_attestation_isSome.mp (Option.isSome_iff_exists.mpr ⟨bytes, hbytes⟩)
  have hcount : a.recordCount < 2 ^ 64 := by
    unfold maxSafeInteger at hsafe
    omega
  constructor
  · rw [Platform.decode, hread a bytes hbytes]
    exact fromValue_attestation hcount
  · intro rules' M timestamp' a' hM hinj ha'
    constructor
    · intro hbytes'
      obtain rfl : a = a' := canonicalJson_inj P hbytes hbytes'
      have heq := (headAttestation_headHash ha).symm.trans (headAttestation_headHash ha')
      exact ⟨eq_of_headHash_eq hL hM hinj heq,
        (headAttestation_timestamp ha).symm.trans (headAttestation_timestamp ha')⟩
    · rintro ⟨rfl, rfl⟩
      cases ha.symm.trans ha'
      exact hbytes

/-- The attestation of the sample log on a leap day. -/
theorem sampleLog_anchored : ∃ a bytes, reference.headAttestation sampleLog "2024-02-29T23:59:59Z" = some a ∧
    reference.encode a = some bytes ∧ reference.decode HeadAttestation bytes = some a := by
  have hread : reference.ReadsAttestations := by
    intro a bytes h
    obtain ⟨text, htext, rfl⟩ := Option.map_eq_some_iff.mp h
    exact reference_reads (LawfulSerialize.floatFree a) htext
  have htime : isCanonicalRfc3339Utc "2024-02-29T23:59:59Z" = true := by decide +kernel
  let a : HeadAttestation := {
    headHash := reference.sha256ConcatIds (sampleLog.map Record.id)
    recordCount := sampleLog.length
    specVersion := specVersion
    timestamp := ⟨"2024-02-29T23:59:59Z", htime⟩ }
  have ha : reference.headAttestation sampleLog "2024-02-29T23:59:59Z" = some a := dif_pos htime
  have hsafe : sampleLog.length ≤ maxSafeInteger := by decide
  have hsome : (reference.encode a).isSome = true := encode_attestation_isSome.mpr hsafe
  obtain ⟨bytes, hbytes⟩ := Option.isSome_iff_exists.mp hsome
  exact ⟨a, bytes, ha, hbytes, (anchored_attestation hread sampleLog_accepts ha hbytes).1⟩

end Bellbook
