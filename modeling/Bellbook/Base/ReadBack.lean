import Bellbook.Base.Canonical

/-!
# Reading canonical text back

The reader of `Lib/Json` inverts the writer on every value without floating-point numbers:
`readText (writeJcs v) = v` up to the order of object members, which the writer fixes. Canonical
text therefore determines the value it was written from — the fact every content address in the
ledger rests on.
-/

namespace Bellbook

open JsonText

mutual
/-- No floating-point number anywhere in the value. -/
def Json.FloatFree : Json → Prop
  | .null | .bool _ | .string _ => True
  | .number (.int _) => True
  | .number (.float _) => False
  | .array items => FloatFreeItems items
  | .object members => FloatFreeMembers members

def FloatFreeItems : List Json → Prop
  | [] => True
  | v :: rest => v.FloatFree ∧ FloatFreeItems rest

def FloatFreeMembers : List (String × Json) → Prop
  | [] => True
  | (_, v) :: rest => v.FloatFree ∧ FloatFreeMembers rest
end

/-! ## Numbers -/

/-- The text after a value: empty, or starting with a character no number token contains. -/
def Delimited (rest : List Char) : Prop := ∀ c tail, rest = c :: tail → isNumberChar c = false

theorem delimited_nil : Delimited [] := by intro c tail h; cases h

theorem delimited_cons {c : Char} {rest : List Char} (h : isNumberChar c = false) :
    Delimited (c :: rest) := by
  intro c' tail h'
  cases h'
  exact h

theorem isNumberChar_of_isDigit {c : Char} (h : c.isDigit = true) : isNumberChar c = true := by
  simp [isNumberChar, h]

theorem isNumberChar_of_mem_decimal {n : Int} {c : Char} (h : c ∈ decimal n) :
    isNumberChar c = true := by
  cases n with
  | ofNat n =>
    exact isNumberChar_of_isDigit (Nat.isDigit_of_mem_toDigits (by decide) (by decide) h)
  | negSucc n =>
    rcases List.mem_cons.mp h with rfl | h
    · decide
    · exact isNumberChar_of_isDigit (Nat.isDigit_of_mem_toDigits (by decide) (by decide) h)

theorem takeWhile_append_delimited {ds rest : List Char} (hd : ∀ c ∈ ds, isNumberChar c = true)
    (hr : Delimited rest) :
    (ds ++ rest).takeWhile isNumberChar = ds ∧ (ds ++ rest).dropWhile isNumberChar = rest := by
  induction ds with
  | nil =>
    cases rest with
    | nil => exact ⟨rfl, rfl⟩
    | cons c rest => simp [hr c rest rfl]
  | cons c ds ih =>
    have hc := hd c List.mem_cons_self
    obtain ⟨ht, hdr⟩ := ih fun x hx => hd x (List.mem_cons_of_mem _ hx)
    simp [hc, ht, hdr]

/-- The first character of a decimal is a digit or a minus sign. -/
theorem decimal_head (n : Int) :
    ∃ c tail, decimal n = c :: tail ∧ (c.isDigit = true ∨ c = '-') := by
  cases n with
  | ofNat n =>
    cases h : Nat.toDigits 10 n with
    | nil => exact absurd h Nat.toDigits_ne_nil
    | cons c tail =>
      have hc : c ∈ Nat.toDigits 10 n := h ▸ List.mem_cons_self
      exact ⟨c, tail, h, .inl (Nat.isDigit_of_mem_toDigits (by decide) (by decide) hc)⟩
  | negSucc n => exact ⟨'-', _, rfl, .inr rfl⟩

/-! ## Strings -/

theorem hexDigit_digitChar : ∀ d < 16, hexDigit (Nat.digitChar d) = some d := by decide

theorem hexQuad_hex4 {n : Nat} (h : n < 0x20) :
    ∃ a b c d, hex4 n = [a, b, c, d] ∧ hexQuad a b c d = some n := by
  refine ⟨_, _, _, _, rfl, ?_⟩
  simp only [hexQuad, hexDigit_digitChar (n / 4096 % 16) (by omega),
    hexDigit_digitChar (n / 256 % 16) (by omega), hexDigit_digitChar (n / 16 % 16) (by omega),
    hexDigit_digitChar (n % 16) (by omega), Option.bind_some, Option.map_some]
  congr 1
  omega

/-- Reading one escaped character gives the character. -/
theorem readString_escapeChar (c : Char) (rest : List Char) :
    readString (escapeChar c ++ rest) = (readString rest).map fun (s, r) => (c :: s, r) := by
  unfold escapeChar
  split
  · next h => subst h; simp [readString, simpleEscape]
  split
  · next h => subst h; simp [readString, simpleEscape]
  split
  · next h =>
    obtain rfl : c = Char.ofNat 0x08 := by rw [← h, Char.ofNat_toNat]
    simp [readString, simpleEscape]
  split
  · next h =>
    obtain rfl : c = Char.ofNat 0x0C := by rw [← h, Char.ofNat_toNat]
    simp [readString, simpleEscape]
  split
  · next h => subst h; simp [readString, simpleEscape]
  split
  · next h => subst h; simp [readString, simpleEscape]
  split
  · next h => subst h; simp [readString, simpleEscape]
  split
  · next h =>
    obtain ⟨a, b, c', d, hq, hv⟩ := hexQuad_hex4 h
    have hhi : isHighSurrogate c.toNat = false := by simp [isHighSurrogate]; omega
    have hlo : isLowSurrogate c.toNat = false := by simp [isLowSurrogate]; omega
    simp [hq, readString, hv, hhi, hlo, Char.ofNat_toNat]
  · next h1 h2 _ _ _ _ _ h8 =>
    simp only [List.cons_append, List.nil_append]
    rw [readString.eq_def]
    split <;> simp_all

theorem readString_escaped (cs rest : List Char) :
    readString (cs.flatMap escapeChar ++ '"' :: rest) = some (cs, rest) := by
  induction cs with
  | nil => simp [readString]
  | cons c cs ih =>
    rw [List.flatMap_cons, List.append_assoc, readString_escapeChar, ih]
    rfl

/-- A written string ends where it ends, whatever follows. -/
theorem writeString_append_inj {s t : String} {rest rest' : List Char}
    (h : writeString s ++ rest = writeString t ++ rest') : s = t ∧ rest = rest' := by
  simp only [writeString, List.cons_append, List.append_assoc, List.nil_append, List.cons.injEq,
    true_and] at h
  have hread := readString_escaped s.toList rest
  rw [h, readString_escaped t.toList rest', Option.some.injEq, Prod.mk.injEq] at hread
  exact ⟨String.toList_inj.mp hread.1.symm, hread.2.symm⟩

/-! ## Values -/

/-- What the text of a value can start with: nothing a reader skips or a container closes with. -/
def StartsValue (text : List Char) : Prop :=
  ∃ c tail, text = c :: tail ∧ isWs c = false ∧ c ≠ ']' ∧ c ≠ '}'

theorem isDigit_bounds {c : Char} (h : c.isDigit = true) : 48 ≤ c.toNat ∧ c.toNat ≤ 57 := by
  simpa [Char.isDigit, UInt32.le_iff_toNat_le] using h

theorem startsValue_of_digit {c : Char} (tail : List Char) (h : c.isDigit = true ∨ c = '-') :
    StartsValue (c :: tail) := by
  refine ⟨c, tail, rfl, ?_⟩
  rcases h with h | rfl
  · have hb := isDigit_bounds h
    have key : ∀ d : Char, d.toNat < 48 ∨ 57 < d.toNat → c ≠ d := by
      rintro d hd rfl
      omega
    simp [isWs, key ' ' (by decide), key '\t' (by decide), key '\n' (by decide),
      key '\r' (by decide), key ']' (by decide), key '}' (by decide)]
  · decide

section Emitted

variable {formatFinite : UInt64 → List Char} {number : List Char → Option JsonNumber}

theorem startsValue_emit {v : Json} {text : List Char} (hf : v.FloatFree)
    (h : emit formatFinite v = some text) : StartsValue text := by
  match v, hf, h with
  | .null, _, h => cases h; exact ⟨'n', _, rfl, by decide⟩
  | .bool true, _, h => cases h; exact ⟨'t', _, rfl, by decide⟩
  | .bool false, _, h => cases h; exact ⟨'f', _, rfl, by decide⟩
  | .string s, _, h => cases h; exact ⟨'"', _, rfl, by decide⟩
  | .number (.int n), _, h =>
    simp only [emit, writeNumber] at h
    split at h
    · cases h
      obtain ⟨c, tail, hd, hc⟩ := decimal_head n
      rw [hd]
      exact startsValue_of_digit _ hc
    · cases h
  | .number (.float _), hf, _ => exact hf.elim
  | .array _, _, h =>
    simp only [emit, Option.map_eq_some_iff] at h
    obtain ⟨ts, -, rfl⟩ := h
    exact ⟨'[', _, rfl, by decide⟩
  | .object _, _, h =>
    simp only [emit, Option.map_eq_some_iff] at h
    obtain ⟨ts, -, rfl⟩ := h
    exact ⟨'{', _, rfl, by decide⟩

theorem skipWs_cons {c : Char} {rest : List Char} (h : isWs c = false) :
    skipWs (c :: rest) = c :: rest := by
  simp [JsonText.skipWs, h]

theorem startsValue_joinComma {v : Json} {vs : List Json} {ts : List (List Char)}
    (hf : FloatFreeItems (v :: vs)) (h : emitItems formatFinite (v :: vs) = some ts) :
    StartsValue (joinComma ts) := by
  simp only [emitItems, Option.bind_eq_some_iff, Option.map_eq_some_iff] at h
  obtain ⟨t, ht, ts, -, rfl⟩ := h
  obtain ⟨c, tail, rfl, hc⟩ := startsValue_emit hf.1 ht
  cases ts with
  | nil => exact ⟨c, tail, rfl, hc⟩
  | cons b ts => exact ⟨c, _, rfl, hc⟩

/-- The text of a non-empty member list starts with the quote of its first name. -/
theorem joinComma_members_head {m : String × Json} {ms : List (String × Json)}
    {ts : List (String × List Char)} (h : emitMembers formatFinite (m :: ms) = some ts) :
    ∃ tail, joinComma (ts.map memberText) = '"' :: tail := by
  obtain ⟨k, v⟩ := m
  simp only [emitMembers, Option.bind_eq_some_iff, Option.map_eq_some_iff] at h
  obtain ⟨t, -, ts, -, rfl⟩ := h
  cases ts with
  | nil => exact ⟨_, rfl⟩
  | cons b ts => exact ⟨_, rfl⟩

/-- A text starting like a number is read as one. -/
theorem readValue_number {c : Char} {tail : List Char} (fuel : Nat)
    (hc : c.isDigit = true ∨ c = '-') :
    readValue number (fuel + 1) (c :: tail) = readNumber number (c :: tail) := by
  obtain ⟨c', tail', heq, hw, -⟩ := startsValue_of_digit tail hc
  cases heq
  rw [readValue, skipWs_cons hw]
  split
  -- the literal, string and container patterns start with characters a number cannot
  all_goals first
    | rfl
    | (next h => cases h; rcases hc with hc | hc <;> exact absurd hc (by decide))

theorem readNumber_decimal (hnum : ∀ n : Int, n.natAbs ≤ maxSafeInteger →
    number (decimal n) = some (.int n)) {n : Int} (hn : n.natAbs ≤ maxSafeInteger)
    {rest : List Char} (hr : Delimited rest) :
    readNumber number (decimal n ++ rest) = some (.number (.int n), rest) := by
  have hdigits : ∀ c ∈ decimal n, isNumberChar c = true :=
    fun c hc => isNumberChar_of_mem_decimal hc
  obtain ⟨ht, hd⟩ := takeWhile_append_delimited hdigits hr
  rw [readNumber, ht, hd, hnum n hn]
  rfl

theorem joinComma_cons_cons (a b : List Char) (rest : List (List Char)) :
    joinComma (a :: b :: rest) = a ++ ',' :: joinComma (b :: rest) := rfl

mutual
/-- The reader inverts the printer, with any delimited text after the value. -/
theorem readValue_emit (hnum : ∀ n : Int, n.natAbs ≤ maxSafeInteger →
    number (decimal n) = some (.int n)) :
    ∀ (v : Json) (text rest : List Char) (fuel : Nat), v.FloatFree →
      emit formatFinite v = some text → Delimited rest → text.length < fuel →
      readValue number fuel (text ++ rest) = some (v, rest)
  | v, text, rest, 0, _, _, _, hlen => by omega
  | .null, text, rest, fuel + 1, _, h, _, _ => by cases h; simp [readValue, skipWs, isWs]
  | .bool true, text, rest, fuel + 1, _, h, _, _ => by cases h; simp [readValue, skipWs, isWs]
  | .bool false, text, rest, fuel + 1, _, h, _, _ => by cases h; simp [readValue, skipWs, isWs]
  | .string s, text, rest, fuel + 1, _, h, _, _ => by
    cases h
    simp only [writeString, List.cons_append, List.append_assoc, List.nil_append]
    rw [readValue, skipWs_cons (by decide)]
    simp [readString_escaped]
  | .number (.int n), text, rest, fuel + 1, _, h, hr, _ => by
    simp only [emit, writeNumber] at h
    split at h
    · next hn =>
      cases h
      obtain ⟨c, tail, hd, hc⟩ := decimal_head n
      have hread := readNumber_decimal hnum hn hr
      rw [hd, List.cons_append] at hread ⊢
      rw [readValue_number fuel hc, hread]
    · cases h
  | .number (.float _), _, _, _ + 1, hf, _, _, _ => hf.elim
  | .array [], text, rest, fuel + 1, _, h, _, _ => by
    cases h
    simp [readValue, skipWs, isWs, joinComma]
  | .array (v :: vs), text, rest, fuel + 1, hf, h, _, hlen => by
    simp only [emit, Option.map_eq_some_iff] at h
    obtain ⟨ts, hts, rfl⟩ := h
    have hitems := readItems_emit hnum v vs ts rest fuel hf hts (by simp at hlen; omega)
    obtain ⟨c, tail, hc, hw, hb, -⟩ := startsValue_joinComma hf hts
    simp only [List.cons_append, List.append_assoc, List.nil_append]
    rw [readValue, skipWs_cons (by decide)]
    rw [hc, List.cons_append] at hitems ⊢
    simp only [skipWs_cons hw]
    split
    · next h => cases h; exact absurd rfl hb
    · rw [hitems]; rfl
  | .object [], text, rest, fuel + 1, _, h, _, _ => by
    cases h
    simp [readValue, skipWs, isWs, joinComma]
  | .object ((k, v) :: ms), text, rest, fuel + 1, hf, h, _, hlen => by
    simp only [emit, Option.map_eq_some_iff] at h
    obtain ⟨ts, hts, rfl⟩ := h
    have hmembers := readMembers_emit hnum k v ms ts rest fuel hf hts (by simp at hlen; omega)
    obtain ⟨tail, hc⟩ := joinComma_members_head hts
    simp only [List.cons_append, List.append_assoc, List.nil_append]
    rw [readValue, skipWs_cons (by decide)]
    rw [hc, List.cons_append] at hmembers ⊢
    simp only [skipWs_cons (c := '"') (by decide)]
    split
    · next h => cases h
    · rw [hmembers]; rfl

theorem readItems_emit (hnum : ∀ n : Int, n.natAbs ≤ maxSafeInteger →
    number (decimal n) = some (.int n)) :
    ∀ (v : Json) (vs : List Json) (ts : List (List Char)) (rest : List Char) (fuel : Nat),
      FloatFreeItems (v :: vs) → emitItems formatFinite (v :: vs) = some ts →
      (joinComma ts).length + 1 < fuel →
      readItems number fuel (joinComma ts ++ ']' :: rest) = some (v :: vs, rest)
  | v, vs, ts, rest, 0, _, _, hlen => by omega
  | v, [], ts, rest, fuel + 1, hf, h, hlen => by
    simp only [emitItems, Option.bind_eq_some_iff, Option.map_some, Option.some.injEq] at h
    obtain ⟨t, ht, rfl⟩ := h
    have hv := readValue_emit hnum v t (']' :: rest) fuel hf.1 ht (delimited_cons (by decide))
      (by simp [joinComma] at hlen; omega)
    simp only [joinComma]
    rw [readItems, hv]
    simp [skipWs, isWs]
  | v, w :: vs, ts, rest, fuel + 1, hf, h, hlen => by
    rw [emitItems] at h
    simp only [Option.bind_eq_some_iff, Option.map_eq_some_iff] at h
    obtain ⟨t, ht, ts', hts', rfl⟩ := h
    obtain ⟨b, ts'', rfl⟩ : ∃ b ts'', ts' = b :: ts'' := by
      simp only [emitItems, Option.bind_eq_some_iff, Option.map_eq_some_iff] at hts'
      obtain ⟨b, -, ts'', -, rfl⟩ := hts'
      exact ⟨b, ts'', rfl⟩
    rw [joinComma_cons_cons] at hlen ⊢
    simp only [List.length_append, List.length_cons] at hlen
    have hv := readValue_emit hnum v t (',' :: (joinComma (b :: ts'') ++ ']' :: rest)) fuel hf.1 ht
      (delimited_cons (by decide)) (by omega)
    have hvs := readItems_emit hnum w vs (b :: ts'') rest fuel hf.2 hts' (by omega)
    rw [List.append_assoc, List.cons_append, readItems, hv]
    simp only [skipWs_cons (c := ',') (by decide)]
    rw [hvs]
    rfl

theorem readMembers_emit (hnum : ∀ n : Int, n.natAbs ≤ maxSafeInteger →
    number (decimal n) = some (.int n)) :
    ∀ (k : String) (v : Json) (ms : List (String × Json)) (ts : List (String × List Char))
      (rest : List Char) (fuel : Nat),
      FloatFreeMembers ((k, v) :: ms) → emitMembers formatFinite ((k, v) :: ms) = some ts →
      (joinComma (ts.map memberText)).length + 1 < fuel →
      readMembers number fuel (joinComma (ts.map memberText) ++ '}' :: rest) =
        some ((k, v) :: ms, rest)
  | k, v, ms, ts, rest, 0, _, _, hlen => by omega
  | k, v, [], ts, rest, fuel + 1, hf, h, hlen => by
    simp only [emitMembers, Option.bind_eq_some_iff, Option.map_some, Option.some.injEq] at h
    obtain ⟨t, ht, rfl⟩ := h
    have hv := readValue_emit hnum v t ('}' :: rest) fuel hf.1 ht (delimited_cons (by decide))
      (by simp [joinComma, memberText] at hlen; omega)
    simp only [List.map_cons, List.map_nil, joinComma, memberText, writeString, List.cons_append,
      List.append_assoc, List.nil_append]
    rw [readMembers, skipWs_cons (by decide)]
    simp only [readString_escaped, skipWs_cons (c := ':') (by decide), hv,
      skipWs_cons (c := '}') (by decide), String.ofList_toList]
  | k, v, (k', w) :: ms, ts, rest, fuel + 1, hf, h, hlen => by
    rw [emitMembers] at h
    simp only [Option.bind_eq_some_iff, Option.map_eq_some_iff] at h
    obtain ⟨t, ht, ts', hts', rfl⟩ := h
    obtain ⟨b, ts'', rfl⟩ : ∃ b ts'', ts' = b :: ts'' := by
      simp only [emitMembers, Option.bind_eq_some_iff, Option.map_eq_some_iff] at hts'
      obtain ⟨b, -, ts'', -, rfl⟩ := hts'
      exact ⟨(k', b), ts'', rfl⟩
    simp only [List.map_cons] at hlen ⊢
    rw [joinComma_cons_cons] at hlen ⊢
    simp only [List.length_append, List.length_cons, memberText] at hlen
    have hv := readValue_emit hnum v t
      (',' :: (joinComma ((b :: ts'').map memberText) ++ '}' :: rest)) fuel hf.1 ht
      (delimited_cons (by decide)) (by omega)
    have hms := readMembers_emit hnum k' w ms (b :: ts'') rest fuel hf.2 hts'
      (by simp only [List.map_cons, memberText]; omega)
    simp only [List.map_cons] at hv hms
    simp only [memberText, writeString, List.cons_append, List.append_assoc, List.nil_append] at hv ⊢
    rw [readMembers, skipWs_cons (by decide)]
    simp only [readString_escaped, skipWs_cons (c := ':') (by decide), hv,
      skipWs_cons (c := ',') (by decide), String.ofList_toList]
    simp only [memberText, writeString, List.cons_append, List.append_assoc, List.nil_append] at hms
    rw [hms]
    rfl
end

end Emitted

/-! ## Whole texts -/

theorem floatFreeMembers_orderedInsert {k : String} {v : Json} {ms : List (String × Json)} :
    FloatFreeMembers (ms.orderedInsert keyLE (k, v)) ↔ v.FloatFree ∧ FloatFreeMembers ms := by
  induction ms with
  | nil => simp [FloatFreeMembers]
  | cons m ms ih =>
    obtain ⟨k', v'⟩ := m
    rw [List.orderedInsert_cons]
    split
    · rfl
    · simp only [FloatFreeMembers, ih]
      tauto

theorem floatFreeMembers_sortMembers {ms : List (String × Json)} :
    FloatFreeMembers (sortMembers ms) ↔ FloatFreeMembers ms := by
  induction ms with
  | nil => rfl
  | cons m ms ih =>
    obtain ⟨k, v⟩ := m
    simp only [sortMembers, List.insertionSort_cons] at ih ⊢
    rw [floatFreeMembers_orderedInsert, ih, FloatFreeMembers]

mutual
theorem Json.FloatFree.canon : ∀ {v : Json}, v.FloatFree → v.canon.FloatFree
  | .null, _ | .bool _, _ | .string _, _ | .number (.int _), _ => by
    simp [Json.canon, Json.FloatFree]
  | .number (.float _), h => h.elim
  | .array items, h => by
    simp only [Json.canon, Json.FloatFree]
    exact FloatFreeItems.canon h
  | .object members, h => by
    simp only [Json.canon, Json.FloatFree, floatFreeMembers_sortMembers]
    exact FloatFreeMembers.canon h

theorem FloatFreeItems.canon : ∀ {vs : List Json}, FloatFreeItems vs → FloatFreeItems (canonItems vs)
  | [], _ => by simp [canonItems, FloatFreeItems]
  | _ :: _, h => ⟨h.1.canon, FloatFreeItems.canon h.2⟩

theorem FloatFreeMembers.canon : ∀ {ms : List (String × Json)}, FloatFreeMembers ms →
    FloatFreeMembers (canonMembers ms)
  | [], _ => by simp [canonMembers, FloatFreeMembers]
  | (_, _) :: _, h => ⟨h.1.canon, FloatFreeMembers.canon h.2⟩
end

variable {formatFinite : UInt64 → List Char} {number : List Char → Option JsonNumber}

/-- **Read-back.** Canonical text reads back as the value it was written from, with every member
list in canonical order. -/
theorem readText_writeJcs (hnum : ∀ n : Int, n.natAbs ≤ maxSafeInteger →
    number (decimal n) = some (.int n)) {v : Json} {text : List Char} (hf : v.FloatFree)
    (h : writeJcs formatFinite v = some text) : readText number text = some v.canon := by
  rw [writeJcs_eq_emit_canon] at h
  have hread := readValue_emit hnum v.canon text [] (text.length + 1) hf.canon h delimited_nil
    (Nat.lt_succ_self _)
  rw [List.append_nil] at hread
  simp [readText, hread, skipWs]

/-- Signed decimal tokens, the only ones canonical text has when there are no doubles. -/
def decimalNumber : List Char → Option JsonNumber
  | '-' :: ds => some (.int (-(Nat.ofDigitChars 10 ds 0)))
  | ds => some (.int (Nat.ofDigitChars 10 ds 0))

theorem decimalNumber_decimal (n : Int) : decimalNumber (decimal n) = some (.int n) := by
  cases n with
  | ofNat n =>
    obtain ⟨c, tail, hd, hc⟩ := decimal_head (.ofNat n)
    have hne : c ≠ '-' := by
      rintro rfl
      have hmem : '-' ∈ Nat.toDigits 10 n := by
        rw [show Nat.toDigits 10 n = _ from hd]
        exact List.mem_cons_self
      exact absurd (Nat.isDigit_of_mem_toDigits (by decide) (by decide) hmem) (by decide)
    have hval : Nat.ofDigitChars 10 (c :: tail) 0 = n := by
      rw [← hd]
      exact Nat.ofDigitChars_ten_toDigits
    rw [hd, decimalNumber.eq_def]
    split
    · next h => cases h; exact absurd rfl hne
    · rw [hval]; rfl
  | negSucc n =>
    simp only [decimal, decimalNumber, Nat.ofDigitChars_ten_toDigits]
    rfl

/-- **Canonical text determines the value**: equal text, equal values up to member order. -/
theorem canon_eq_of_writeJcs_eq {v w : Json} {text : List Char} (hv : v.FloatFree)
    (hw : w.FloatFree) (h₁ : writeJcs formatFinite v = some text)
    (h₂ : writeJcs formatFinite w = some text) : v.canon = w.canon := by
  have r₁ := readText_writeJcs (fun n _ => decimalNumber_decimal n) hv h₁
  have r₂ := readText_writeJcs (fun n _ => decimalNumber_decimal n) hw h₂
  rw [r₁] at r₂
  exact Option.some.inj r₂

end Bellbook
