import Lineage.Proofs.JsonText
import Lineage.Proofs.Quoting

/-!
# TOML text is read as it was written

Strings, numbers and arrays of strings are read back as the values they were written for
(`Denotes`), and so are headers and assignments of such values as lines (`LineText`). A text of
lines and empty lines is read as its lines (`LineTexts.lines?_eq`). A number is read to its end and
no further, and is no date, because what stands behind its digits is a line break.
-/

namespace Lineage.Toml

variable {rest : List Char}

/-! ## Scalars -/

/-- The text stands for the value at the end of a line. -/
structure Denotes (cs : List Char) (x : Toml) : Prop where
  skipSpace_append : ∀ rest, skipSpace (cs ++ rest) = cs ++ rest
  scanValue_append : ∀ {fuel depth : Nat}, cs.length < fuel → 0 < depth → ∀ rest,
    scanValue fuel depth (cs ++ '\n' :: rest) = some (x, '\n' :: rest)

theorem scanValue_scalar {c : Char} (hbracket : c ≠ '[') (hbrace : c ≠ '\x7b') (fuel depth : Nat)
    (cs : List Char) : scanValue (fuel + 1) depth (c :: cs) = scanScalar (c :: cs) := by
  simp [scanValue, hbracket, hbrace]

theorem scanScalar_str {c : Char} {cs s : List Char} (htrue : c ≠ 't') (hfalse : c ≠ 'f')
    (h : scanString (c :: cs) = some (s, rest)) :
    scanScalar (c :: cs) = some (.str (String.ofList s), rest) := by
  rw [scanScalar.eq_3 _ (by simp [htrue]) (by simp [hfalse]), h]

theorem exists_quote_eq_cons (text : String) :
    ∃ c cs, quote text = c :: cs ∧ (c = '"' ∨ c = '\x27') := by
  unfold quote
  cases hstyle : styleOf text.toList <;> simp [hstyle, quotes, singleQuotes]

theorem ne_of_quoteMark {c d : Char} (hc : c = '"' ∨ c = '\x27') (hdouble : '"' ≠ d)
    (hsingle : '\x27' ≠ d) : c ≠ d := by
  rcases hc with rfl | rfl
  · exact hdouble
  · exact hsingle

/-- A string is read wherever a value may stand. -/
theorem scanValue_quote (text : String) (fuel depth : Nat) (hrest : NoQuote rest) :
    scanValue (fuel + 1) depth (quote text ++ rest) = some (.str text, rest) := by
  have hscan := scanString_quote text hrest
  obtain ⟨c, cs, hquote, hc⟩ := exists_quote_eq_cons text
  rw [hquote, List.cons_append] at hscan ⊢
  have hne {d : Char} : '"' ≠ d → '\x27' ≠ d → c ≠ d := ne_of_quoteMark hc
  rw [scanValue_scalar (hne (by decide) (by decide)) (hne (by decide) (by decide)),
    scanScalar_str (hne (by decide) (by decide)) (hne (by decide) (by decide)) hscan,
    String.ofList_toList]

theorem noQuote_cons {c : Char} (hdouble : c ≠ '"') (hsingle : c ≠ '\x27') (cs : List Char) :
    NoQuote (c :: cs) := by
  rintro _ ⟨⟩
  exact ⟨hdouble, hsingle⟩

theorem skipSpace_quote (text : String) (rest : List Char) :
    skipSpace (quote text ++ rest) = quote text ++ rest := by
  obtain ⟨c, cs, hquote, hc⟩ := exists_quote_eq_cons text
  rw [hquote]
  rcases hc with rfl | rfl <;> rfl

theorem denotes_quote (text : String) : Denotes (quote text) (.str text) where
  skipSpace_append := skipSpace_quote text
  scanValue_append {fuel depth} hfuel _ rest := by
    obtain ⟨fuel, rfl⟩ := Nat.exists_eq_add_of_lt hfuel
    exact scanValue_quote text _ depth (noQuote_cons (by decide) (by decide) rest)

/-! ## Numbers -/

section Numbers

variable {ds : List Char}

theorem ne_of_isDigit {c d : Char} (hc : c.isDigit) (hd : d.isDigit = false) : c ≠ d := by
  rintro rfl
  rw [hc] at hd
  cases hd

/-- Behind some of the digits comes another one or the line break. -/
theorem char?_of_digitsOf? (hds : ∀ d ∈ ds, d.isDigit) {count n : Nat} {behind : List Char}
    (h : digitsOf? count (ds ++ '\n' :: rest) = some (n, behind)) {c : Char}
    (hc : c.isDigit = false) (hnewline : '\n' ≠ c) : char? c behind = none := by
  unfold digitsOf? at h
  dsimp only at h
  split_ifs at h with htake
  obtain ⟨-, rfl⟩ := Prod.mk.inj (Option.some.inj h)
  simp only [Bool.and_eq_true, List.all_eq_true] at htake
  have hcount : count ≤ ds.length := by
    by_contra hlt
    have hmem : '\n' ∈ (ds ++ '\n' :: rest).take count := by
      rw [List.take_append, List.mem_append]
      obtain ⟨k, hk⟩ := Nat.exists_eq_add_of_lt (Nat.lt_of_not_le hlt)
      right
      rw [show count - ds.length = k + 1 by omega]
      exact List.mem_cons_self
    cases htake.2 _ hmem
  rw [List.drop_append_of_le_length hcount]
  rcases hbehind : ds.drop count with _ | ⟨d, behind⟩
  · exact if_neg hnewline
  · have hd : d ∈ ds := List.mem_of_mem_drop (hbehind ▸ List.mem_cons_self)
    exact if_neg (ne_of_isDigit (hds d hd) hc)

theorem scanDate_digits (hds : ∀ d ∈ ds, d.isDigit) : scanDate (ds ++ '\n' :: rest) = none := by
  unfold scanDate
  rcases hyear : digitsOf? 4 (ds ++ '\n' :: rest) with _ | ⟨year, behind⟩
  · rfl
  · simp [char?_of_digitsOf? hds hyear]

theorem scanTime_digits (hds : ∀ d ∈ ds, d.isDigit) : scanTime (ds ++ '\n' :: rest) = none := by
  unfold scanTime
  rcases hhour : within? 0 23 (digitsOf? 2 (ds ++ '\n' :: rest)) with _ | ⟨hour, behind⟩
  · rfl
  · have hdigits := (Option.filter_eq_some_iff.1 hhour).1
    simp [char?_of_digitsOf? hds hdigits]

theorem scanDateTime_digits (hds : ∀ d ∈ ds, d.isDigit) (rest : List Char) :
    scanDateTime (ds ++ '\n' :: rest) = none := by
  rw [scanDateTime, scanDate_digits hds]
  exact scanTime_digits hds

theorem moreDigits_append : ∀ {ds : List Char}, (∀ d ∈ ds, d.isDigit) →
    moreDigits Char.isDigit (ds ++ '\n' :: rest) = (ds, '\n' :: rest)
  | [], _ => by
    rw [List.nil_append, moreDigits.eq_2 _ _ _ (by simp)]
    rfl
  | d :: ds, hds => by
    rw [List.forall_mem_cons] at hds
    have hline := ne_of_isDigit (d := '_') hds.1 rfl
    rw [List.cons_append, moreDigits.eq_2 _ _ _ (by simp [hline]), if_pos hds.1,
      moreDigits_append hds.2]

theorem scanWhole_toDigits (n : Nat) (rest : List Char) :
    scanWhole (Nat.toDigits 10 n ++ '\n' :: rest) = some (Nat.toDigits 10 n, '\n' :: rest) := by
  have hdigits : ∀ d ∈ Nat.toDigits 10 n, d.isDigit := fun d => Json.isDigit_toDigits
  unfold scanWhole
  rcases hn : Nat.toDigits 10 n with _ | ⟨d, ds⟩
  · exact absurd hn Nat.toDigits_ne_nil
  · rw [hn, List.forall_mem_cons] at hdigits
    split
    · next rest' heq =>
      obtain ⟨rfl, rfl⟩ := List.cons.inj heq
      have hzero := Json.head?_toDigits n (by rw [hn]; rfl)
      rw [hzero, Nat.toDigits_zero] at hn
      obtain ⟨-, rfl⟩ := List.cons.inj hn
      rfl
    · rw [List.cons_append, scanDigits, if_pos hdigits.1, moreDigits_append hdigits.2]

theorem scanSign_digit {d : Char} (hd : d.isDigit) (cs : List Char) :
    scanSign (d :: cs) = (false, d :: cs) := by
  have hminus := ne_of_isDigit (d := '-') hd rfl
  have hplus := ne_of_isDigit (d := '+') hd rfl
  exact scanSign.eq_3 _ (by simp [hminus]) (by simp [hplus])

theorem scanDecimal_toDigits {n : Nat} (hn : n < int64Limit) (rest : List Char) :
    scanDecimal (Nat.toDigits 10 n ++ '\n' :: rest) = some (.int n, '\n' :: rest) := by
  have hwhole := scanWhole_toDigits n rest
  obtain ⟨d, ds, hdigits, hd⟩ := Json.exists_toDigits_eq_cons n
  have hsign := scanSign_digit hd (ds ++ '\n' :: rest)
  have hfraction : scanFraction ('\n' :: rest) = some ([], '\n' :: rest) := rfl
  have hexponent : scanExponent ('\n' :: rest) = some (none, '\n' :: rest) := rfl
  rw [← List.cons_append, ← hdigits] at hsign
  simp [scanDecimal, hsign, hwhole, hfraction, hexponent, int?, Decimal.value_toDigits, hn]

/-- No base is given: behind the first digit comes another one or the line break. -/
theorem scanNumber_digits {d : Char} (hd : d.isDigit) (hds : ∀ d ∈ ds, d.isDigit) :
    scanNumber (d :: (ds ++ '\n' :: rest)) = scanDecimal (d :: (ds ++ '\n' :: rest)) := by
  have hbase {c : Char} (hc : c.isDigit = false) (hnewline : '\n' ≠ c) (cs : List Char) :
      d :: (ds ++ '\n' :: rest) ≠ '0' :: c :: cs := by
    rcases ds with _ | ⟨e, ds⟩
    · simp [hnewline]
    · simp [ne_of_isDigit (hds e List.mem_cons_self) hc]
  have hinf := ne_of_isDigit (d := 'i') hd rfl
  have hnan := ne_of_isDigit (d := 'n') hd rfl
  rw [scanNumber.eq_4 _ (hbase rfl (by decide)) (hbase rfl (by decide)) (hbase rfl (by decide)),
    scanSign_digit hd]
  split <;> simp_all

theorem scanScalar_toDigits {n : Nat} (hn : n < int64Limit) (rest : List Char) :
    scanScalar (Nat.toDigits 10 n ++ '\n' :: rest) = some (.int n, '\n' :: rest) := by
  have hdecimal := scanDecimal_toDigits hn rest
  have hdigits : ∀ d ∈ Nat.toDigits 10 n, d.isDigit := fun d => Json.isDigit_toDigits
  have hdate := scanDateTime_digits hdigits rest
  obtain ⟨d, ds, hcons, hd⟩ := Json.exists_toDigits_eq_cons n
  rw [hcons] at hdigits hdate hdecimal ⊢
  have htrue := ne_of_isDigit (d := 't') hd rfl
  have hfalse := ne_of_isDigit (d := 'f') hd rfl
  have hquote := ne_of_isDigit (d := '"') hd rfl
  have hsingle := ne_of_isDigit (d := '\x27') hd rfl
  have hnone : scanString (d :: (ds ++ '\n' :: rest)) = none :=
    scanString.eq_5 _ (by simp [hquote]) (by simp [hquote]) (by simp [hsingle]) (by simp [hsingle])
  rw [List.cons_append] at hdate hdecimal ⊢
  rw [scanScalar.eq_3 _ (by simp [htrue]) (by simp [hfalse]), hnone, hdate,
    scanNumber_digits hd fun e he => hdigits e (List.mem_cons_of_mem d he), hdecimal]

theorem denotes_toDigits {n : Nat} (hn : n < int64Limit) :
    Denotes (Nat.toDigits 10 n) (.int n) where
  skipSpace_append rest := by
    obtain ⟨d, ds, hcons, hd⟩ := Json.exists_toDigits_eq_cons n
    have hspace : isSpace d = false := by
      simp [isSpace, ne_of_isDigit (d := ' ') hd rfl, ne_of_isDigit (d := '\t') hd rfl]
    rw [hcons, List.cons_append, skipSpace, List.dropWhile_cons_of_neg (by simp [hspace])]
  scanValue_append {fuel depth} hfuel _ rest := by
    obtain ⟨fuel, rfl⟩ := Nat.exists_eq_add_of_lt hfuel
    have hscan := scanScalar_toDigits hn rest
    obtain ⟨d, ds, hcons, hd⟩ := Json.exists_toDigits_eq_cons n
    rw [hcons, List.cons_append] at hscan ⊢
    rw [scanValue_scalar (ne_of_isDigit hd rfl) (ne_of_isDigit hd rfl), hscan]

end Numbers

/-! ## Lines -/

/-- A key that needs no quotes. -/
structure BareKey (key : String) : Prop where
  ne_nil : key.toList ≠ []
  bare : ∀ c ∈ key.toList, isBare c

theorem bareKey_iff {key : String} : BareKey key ↔ key.toList ≠ [] ∧ key.toList.all isBare := by
  rw [List.all_eq_true]
  exact ⟨fun h => ⟨h.ne_nil, h.bare⟩, fun h => ⟨h.1, h.2⟩⟩

instance (key : String) : Decidable (BareKey key) := decidable_of_iff' _ bareKey_iff

theorem BareKey.exists_eq_cons {key : String} (h : BareKey key) :
    ∃ c cs, key.toList = c :: cs ∧ isBare c := by
  obtain ⟨c, cs, hkey⟩ := List.exists_cons_of_ne_nil h.ne_nil
  exact ⟨c, cs, hkey, h.bare c (hkey ▸ List.mem_cons_self)⟩

theorem ne_of_isBare {c d : Char} (hc : isBare c) (hd : isBare d = false) : c ≠ d := by
  rintro rfl
  rw [hc] at hd
  cases hd

theorem skipSpace_bare {c : Char} (hc : isBare c) (cs : List Char) :
    skipSpace (c :: cs) = c :: cs := by
  have hspace : isSpace c = false := by
    simp [isSpace, ne_of_isBare (d := ' ') hc rfl, ne_of_isBare (d := '\t') hc rfl]
  rw [skipSpace, List.dropWhile_cons_of_neg (by simp [hspace])]

theorem skipTrivia_bare {c : Char} (hc : isBare c) (cs : List Char) :
    skipTrivia false (c :: cs) = c :: cs := by
  have hline := ne_of_isBare (d := '\n') hc rfl
  have hreturn := ne_of_isBare (d := '\r') hc rfl
  have hcomment := ne_of_isBare (d := '#') hc rfl
  have hspace : isSpace c = false := by
    simp [isSpace, ne_of_isBare (d := ' ') hc rfl, ne_of_isBare (d := '\t') hc rfl]
  rw [skipTrivia.eq_5 _ _ (by simp [hline]) (by simp [hreturn])]
  simp [hspace, hcomment]

theorem scanSimpleKey_bare {key : String} (hkey : BareKey key) {d : Char} (hd : isBare d = false)
    (rest : List Char) :
    scanSimpleKey (key.toList ++ d :: rest) = some (key, d :: rest) := by
  obtain ⟨c, cs, hcons, hc⟩ := hkey.exists_eq_cons
  have htake : (key.toList ++ d :: rest).takeWhile isBare = key.toList := by
    rw [List.takeWhile_append_of_pos hkey.bare, List.takeWhile_cons_of_neg (by simp [hd]),
      List.append_nil]
  have hdrop : (key.toList ++ d :: rest).dropWhile isBare = d :: rest := by
    rw [List.dropWhile_append_of_pos hkey.bare, List.dropWhile_cons_of_neg (by simp [hd])]
  rw [scanSimpleKey.eq_3, htake, hdrop, hcons]
  · simp [← hcons]
  · simp [hcons, ne_of_isBare (d := '"') hc rfl]
  · simp [hcons, ne_of_isBare (d := '\x27') hc rfl]

theorem scanKey_bare {key : String} (hkey : BareKey key) {d e : Char} (hd : isBare d = false)
    {behind : List Char} (hskip : skipSpace (d :: rest) = e :: behind) (he : e ≠ '.') :
    scanKey keyLimit (key.toList ++ d :: rest) = some ([key], e :: behind) := by
  have hsimple := scanSimpleKey_bare hkey hd rest
  have hspace : skipSpace (key.toList ++ d :: rest) = key.toList ++ d :: rest := by
    obtain ⟨c, cs, hcons, hc⟩ := hkey.exists_eq_cons
    rw [hcons, List.cons_append, skipSpace_bare hc]
  change scanKey (78 + 1) _ = _
  rw [scanKey, hspace, hsimple]
  simp only [Option.bind_eq_bind, Option.bind_some, hskip]
  split <;> simp_all

/-- The text says one line, without a line break at its end. -/
structure LineText (l : Line) (cs : List Char) : Prop where
  skipTrivia_append : ∀ rest, skipTrivia false (cs ++ rest) = cs ++ rest
  scanLine_append : ∀ rest, scanLine (cs ++ '\n' :: rest) = some (l, '\n' :: rest)

def headerText (key : String) : List Char := '[' :: key.toList ++ [']']

def assignmentText (key : String) (cs : List Char) : List Char :=
  key.toList ++ ' ' :: '=' :: ' ' :: cs

theorem lineText_header {key : String} (hkey : BareKey key) :
    LineText (.header [key]) (headerText key) where
  skipTrivia_append rest := rfl
  scanLine_append rest := by
    have hscan : scanKey keyLimit (key.toList ++ ']' :: '\n' :: rest)
        = some ([key], ']' :: '\n' :: rest) := scanKey_bare hkey rfl rfl (by decide)
    obtain ⟨c, cs, hcons, hc⟩ := hkey.exists_eq_cons
    have hsingle : ∀ tail, key.toList ++ ']' :: '\n' :: rest ≠ '[' :: tail := by
      simp [hcons, ne_of_isBare (d := '[') hc rfl]
    simp only [headerText, List.cons_append, List.append_assoc, List.nil_append]
    rw [scanLine.eq_2 _ hsingle, scanHeader, hscan]
    rfl

theorem lineText_assignment {key : String} (hkey : BareKey key) {cs : List Char} {x : Toml}
    (hx : Denotes cs x) : LineText (.assignment [key] x) (assignmentText key cs) where
  skipTrivia_append rest := by
    obtain ⟨c, ks, hcons, hc⟩ := hkey.exists_eq_cons
    rw [assignmentText, hcons]
    exact skipTrivia_bare hc _
  scanLine_append rest := by
    have hscan : scanKey keyLimit (key.toList ++ ' ' :: '=' :: ' ' :: (cs ++ '\n' :: rest))
        = some ([key], '=' :: ' ' :: (cs ++ '\n' :: rest)) := scanKey_bare hkey rfl rfl (by decide)
    obtain ⟨c, ks, hcons, hc⟩ := hkey.exists_eq_cons
    have hbracket (tail : List Char) :
        key.toList ++ ' ' :: '=' :: ' ' :: (cs ++ '\n' :: rest) ≠ '[' :: tail := by
      simp [hcons, ne_of_isBare (d := '[') hc rfl]
    have hspace : skipSpace (' ' :: (cs ++ '\n' :: rest)) = cs ++ '\n' :: rest :=
      hx.skipSpace_append _
    have hlength : cs.length < 2 * (' ' :: (cs ++ '\n' :: rest)).length + 2 := by
      simp only [List.length_cons, List.length_append]
      omega
    simp only [assignmentText, List.cons_append, List.append_assoc]
    rw [scanLine.eq_3 _ (fun _ => hbracket _) hbracket, hscan]
    simp only [Option.bind_eq_bind, Option.bind_some, char?, ↓reduceIte, hspace,
      hx.scanValue_append hlength (by decide : 0 < nestingLimit)]
    rfl

/-- Lines and empty lines. -/
inductive LineTexts : List Line → List Char → Prop where
  | nil : LineTexts [] []
  | blank {ls : List Line} {cs : List Char} (h : LineTexts ls cs) : LineTexts ls ('\n' :: cs)
  | line {l : Line} {ls : List Line} {cs rest : List Char} (hl : LineText l cs)
    (h : LineTexts ls rest) : LineTexts (l :: ls) (cs ++ '\n' :: rest)

theorem scanLines_line {fuel : Nat} {cs start behind : List Char} {l : Line} {ls : List Line}
    (hstart : skipTrivia false cs = start) (hline : scanLine start = some (l, behind))
    (hend : lineEnd? behind = some rest) (hrest : scanLines fuel rest = some ls) :
    scanLines (fuel + 1) cs = some (l :: ls) := by
  rw [scanLines, hstart]
  rcases start with _ | ⟨c, start⟩
  · cases hline
  · simp [hline, hend, hrest]

/-- An empty line takes no fuel, any other line one. -/
theorem LineTexts.scanLines_eq {ls : List Line} {cs : List Char} (h : LineTexts ls cs) :
    ∀ {fuel : Nat}, cs.length < fuel → scanLines fuel cs = some ls := by
  induction h with
  | nil =>
    intro fuel hfuel
    obtain ⟨fuel, rfl⟩ := Nat.exists_eq_add_of_lt hfuel
    rfl
  | @blank ls cs _ ih =>
    intro fuel hfuel
    have hrest := ih (Nat.lt_of_succ_lt hfuel)
    obtain ⟨fuel, rfl⟩ := Nat.exists_eq_add_of_lt hfuel
    exact hrest
  | @line l ls cs rest hl _ ih =>
    intro fuel hfuel
    obtain ⟨fuel, rfl⟩ := Nat.exists_eq_succ_of_ne_zero (Nat.ne_zero_of_lt hfuel)
    have hrest : scanLines fuel rest = some ls := ih (by
      simp only [List.length_append, List.length_cons] at hfuel
      omega)
    have hend : lineEnd? ('\n' :: rest) = some rest := rfl
    exact scanLines_line (hl.skipTrivia_append _) (hl.scanLine_append rest) hend hrest

theorem LineTexts.lines?_eq {ls : List Line} {cs : List Char} (h : LineTexts ls cs)
    (hmark : skipMark cs = cs) : lines? (String.ofList cs) = some ls := by
  rw [lines?, String.toList_ofList, hmark]
  exact h.scanLines_eq (Nat.lt_succ_self _)

end Lineage.Toml
