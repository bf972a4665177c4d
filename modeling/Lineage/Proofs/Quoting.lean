import Lineage.Toml.Quoted
import Lineage.Toml.Reader
import Mathlib.Tactic.Common
import Mathlib.Tactic.IntervalCases

/-!
# Quoted TOML strings are read as they were

Whatever style a string is quoted in, it is read back whole, up to the quotes that close it
(`scanString_quote`). Over several lines that takes care with quotes in a row: up to two of them
belong to the string, also right before the closing ones, so the induction goes with those that are
pending (`scanMultiBasic_escapeAll`, `scanMultiLiteral_of_runs`).
-/

namespace Lineage.Toml

@[simp]
theorem push_some (c : Char) (s rest : List Char) :
    push (some c) (some (s, rest)) = some (c :: s, rest) := rfl

/-- What may follow a quoted string. -/
def NoQuote (rest : List Char) : Prop := ∀ c, rest.head? = some c → c ≠ '"' ∧ c ≠ '\x27'

/-! ## Escapes -/

theorem hexValue?_hexDigit : ∀ n < 16, hexValue? (hexDigit n) = some n := by decide

theorem hexChar?_hexDigit {n : Nat} (hn : n < 256) :
    hexChar? ['0', '0', hexDigit (n / 16), hexDigit (n % 16)] = some (Char.ofNat n) := by
  have hhigh := hexValue?_hexDigit (n / 16) (by omega)
  have hlow := hexValue?_hexDigit (n % 16) (by omega)
  have hzero : hexValue? '0' = some 0 := rfl
  have hvalue : 16 * (n / 16) + n % 16 = n := Nat.div_add_mod n 16
  have hvalid : n.isValidChar := .inl (by omega)
  simp [hexChar?, hhigh, hlow, hzero, ofCodePoint?, Nat.mul_comm, hvalue, hvalid]

/-- How a character other than a quote can be written between quotes. -/
inductive Escapes (multi : Bool) (c : Char) : List Char → Prop where
  | letter {d : Char} (hd : unescape? d = some c) : Escapes multi c ['\\', d]
  | code {a b : Char} (hcode : hexChar? ['0', '0', a, b] = some c) :
    Escapes multi c ['\\', 'u', '0', '0', a, b]
  | newline (hmulti : multi) (hc : c = '\n') : Escapes multi c [c]
  | plain (hc : isPlain c) (hslash : c ≠ '\\') : Escapes multi c [c]

theorem escapes_escape (multi : Bool) (c : Char) : Escapes multi c (escape multi c) := by
  unfold escape
  split_ifs with h₁ h₂ h₃ hmulti h₄ h₅ h₆ h₇
  · subst h₁; exact .letter rfl
  · subst h₂; exact .letter rfl
  · exact h₃ ▸ .newline hmulti h₃
  · subst h₃; exact .letter rfl
  · subst h₄; exact .letter rfl
  · subst h₅; exact .letter rfl
  · subst h₆; exact .letter rfl
  · have hlt : c.toNat < 256 := by
      simp only [Bool.or_eq_true, decide_eq_true_eq] at h₇
      omega
    exact .code ((hexChar?_hexDigit hlt).trans (congrArg some (Char.ofNat_toNat c)))
  · simp only [Bool.or_eq_true, decide_eq_true_eq, not_or] at h₇
    exact .plain (by simp [isPlain, h₇.2, Nat.le_of_not_lt h₇.1]) h₆

/-- What starts an escaped character: no quote, and a line break only for a line break. -/
theorem Escapes.exists_eq_cons {multi : Bool} {c : Char} {cs : List Char} (h : Escapes multi c cs)
    (hquote : c ≠ '"') :
    ∃ d ds, cs = d :: ds ∧ d ≠ '"' ∧ d ≠ '\r' ∧ (d = '\n' → c = '\n') := by
  cases h with
  | letter => exact ⟨_, _, rfl, by decide, by decide, fun h => absurd h (by decide)⟩
  | code => exact ⟨_, _, rfl, by decide, by decide, fun h => absurd h (by decide)⟩
  | newline _ hc => exact ⟨c, [], rfl, hquote, hc ▸ by decide, id⟩
  | plain hc =>
    have hreturn : c ≠ '\r' := by rintro rfl; cases hc
    exact ⟨c, [], rfl, hquote, hreturn, id⟩

theorem unescape?_cases {c d : Char} (h : unescape? d = some c) :
    d ≠ 'u' ∧ d ≠ 'U' ∧ ∀ cs, endsLine (d :: cs) = false := by
  unfold unescape? at h
  split_ifs at h with h₁ h₂ h₃ h₄ h₅ h₆ h₇ <;> subst d <;>
    exact ⟨by decide, by decide, fun cs => rfl⟩

/-! ## On one line -/

theorem scanBasic_letter {c d : Char} (hd : unescape? d = some c) (cs : List Char) :
    scanBasic ('\\' :: d :: cs) = push (some c) (scanBasic cs) := by
  obtain ⟨hu, hU, -⟩ := unescape?_cases hd
  rw [scanBasic.eq_5 _ _ (by simp [hu]) (by simp [hU]), hd]

theorem scanBasic_plain {c : Char} (hquote : c ≠ '"') (hslash : c ≠ '\\') (hc : isPlain c)
    (cs : List Char) : scanBasic (c :: cs) = push (some c) (scanBasic cs) := by
  rw [scanBasic.eq_6 _ _ (by simp [hquote]) (by simp [hslash]) (by simp [hslash])
    (by simp [hslash]), if_pos (by simp [hc, hslash])]

theorem Escapes.scanBasic {c : Char} {cs : List Char} (h : Escapes false c cs) (hquote : c ≠ '"')
    (rest : List Char) : scanBasic (cs ++ rest) = push (some c) (scanBasic rest) := by
  cases h with
  | letter hd => exact scanBasic_letter hd rest
  | code hcode =>
    rw [← hcode]
    rfl
  | newline hmulti => cases hmulti
  | plain hplain hslash => exact scanBasic_plain hquote hslash hplain rest

theorem escapeAll_cons_of_ne {c : Char} (hc : c ≠ '"') (multi : Bool) (run : Nat) (s : List Char) :
    escapeAll multi run (c :: s) = escape multi c ++ escapeAll multi 0 s := if_neg hc

theorem escapeAll_false_quote (run : Nat) (s : List Char) :
    escapeAll false run ('"' :: s) = '\\' :: '"' :: escapeAll false 0 s := by
  simp [escapeAll]

theorem escapeAll_true_quote {run : Nat} (hrun : run < 2) (s : List Char) :
    escapeAll true run ('"' :: s) = '"' :: escapeAll true (run + 1) s := by
  simp [escapeAll, Nat.not_le.2 hrun]

theorem escapeAll_true_two (s : List Char) :
    escapeAll true 2 ('"' :: s) = '\\' :: '"' :: escapeAll true 0 s := by
  simp [escapeAll]

theorem scanBasic_escapeAll (rest : List Char) : ∀ (s : List Char) (run : Nat),
    scanBasic (escapeAll false run s ++ '"' :: rest) = some (s, rest)
  | [], run => rfl
  | c :: s, run => by
    have ih := scanBasic_escapeAll rest s 0
    by_cases hc : c = '"'
    · rw [hc, escapeAll_false_quote, List.cons_append, List.cons_append, scanBasic_letter rfl, ih,
        push_some]
    · rw [escapeAll_cons_of_ne hc, List.append_assoc, (escapes_escape false c).scanBasic hc, ih,
        push_some]

/-! ## Over several lines -/

theorem scanMultiBasic_quote {cs : List Char} (h : ∀ tail, cs ≠ '"' :: '"' :: tail) :
    scanMultiBasic false ('"' :: cs) = push (some '"') (scanMultiBasic false cs) := by
  rw [scanMultiBasic.eq_14]
  · rfl
  all_goals simp_all

theorem scanMultiBasic_letter {c d : Char} (hd : unescape? d = some c) (cs : List Char) :
    scanMultiBasic false ('\\' :: d :: cs) = push (some c) (scanMultiBasic false cs) := by
  obtain ⟨hu, hU, hends⟩ := unescape?_cases hd
  rw [scanMultiBasic.eq_13 _ _ _ (by simp [hu]) (by simp [hU]), if_neg (by simp [hends]), hd]

theorem scanMultiBasic_plain {c : Char} (hquote : c ≠ '"') (hslash : c ≠ '\\') (hc : isPlain c)
    (cs : List Char) :
    scanMultiBasic false (c :: cs) = push (some c) (scanMultiBasic false cs) := by
  have hnewline : c ≠ '\n' := by rintro rfl; cases hc
  have hreturn : c ≠ '\r' := by rintro rfl; cases hc
  rw [scanMultiBasic.eq_14, if_pos (by simp [hc, hslash])]
  all_goals simp_all

theorem Escapes.scanMultiBasic {c : Char} {cs : List Char} (h : Escapes true c cs)
    (hquote : c ≠ '"') (rest : List Char) :
    scanMultiBasic false (cs ++ rest) = push (some c) (scanMultiBasic false rest) := by
  cases h with
  | letter hd => exact scanMultiBasic_letter hd rest
  | code hcode =>
    rw [← hcode]
    rfl
  | newline _ hc =>
    rw [hc]
    rfl
  | plain hplain hslash => exact scanMultiBasic_plain hquote hslash hplain rest

/-- Where a scanner takes a quote that is no part of the closing ones into the string, it takes up
to two of them before something else. -/
theorem scan_replicate {scan : List Char → Option (List Char × List Char)} {q : Char}
    (hscan : ∀ {cs}, (∀ tail, cs ≠ q :: q :: tail) → scan (q :: cs) = push (some q) (scan cs))
    {cs s rest : List Char} (hcs : cs.head? ≠ some q) (h : scan cs = some (s, rest)) :
    ∀ {run : Nat}, run ≤ 2 →
      scan (List.replicate run q ++ cs) = some (List.replicate run q ++ s, rest)
  | 0, _ => h
  | run + 1, hrun => by
    have ih := scan_replicate hscan hcs h (Nat.le_of_succ_le hrun)
    have hshort : ∀ tail, List.replicate run q ++ cs ≠ q :: q :: tail := by
      rintro tail heq
      obtain rfl | rfl : run = 0 ∨ run = 1 := by omega
      · exact hcs (by rw [show cs = _ from heq]; rfl)
      · exact hcs (by rw [show cs = _ from (List.cons.inj heq).2]; rfl)
    rw [List.replicate_succ, List.cons_append, hscan hshort, ih, push_some, List.cons_append]

/-- Of up to five quotes in a row the last three close the string. -/
theorem scanMultiBasic_quotes {rest : List Char} (hrest : rest.head? ≠ some '"') {run : Nat}
    (hrun : run ≤ 2) :
    scanMultiBasic false (List.replicate run '"' ++ (quotes ++ rest))
      = some (List.replicate run '"', rest) := by
  have hne : ∀ tail, rest ≠ '"' :: tail := by
    rintro tail rfl
    exact hrest rfl
  interval_cases run
  · exact scanMultiBasic.eq_8 _ _ (fun tail => hne _) hne
  · exact scanMultiBasic.eq_7 _ _ hne
  · exact scanMultiBasic.eq_6 _ _

/-- The string is read with the quotes that are pending before it. -/
theorem scanMultiBasic_escapeAll {rest : List Char} (hrest : rest.head? ≠ some '"') :
    ∀ (s : List Char) {run : Nat}, run ≤ 2 →
      scanMultiBasic false (List.replicate run '"' ++ (escapeAll true run s ++ (quotes ++ rest)))
        = some (List.replicate run '"' ++ s, rest)
  | [], run, hrun => by
    rw [escapeAll, List.nil_append, List.append_nil, scanMultiBasic_quotes hrest hrun]
  | c :: s, run, hrun => by
    have ih := scanMultiBasic_escapeAll hrest s (Nat.zero_le 2)
    simp only [List.replicate_zero, List.nil_append] at ih
    by_cases hc : c = '"'
    · subst hc
      rcases Nat.lt_or_eq_of_le hrun with hlt | rfl
      · have hpending := scanMultiBasic_escapeAll hrest s (Nat.succ_le_of_lt hlt)
        rw [List.replicate_succ', List.append_assoc, List.append_assoc] at hpending
        rw [escapeAll_true_quote hlt]
        exact hpending
      · rw [escapeAll_true_two]
        refine scan_replicate scanMultiBasic_quote (by simp) ?_ le_rfl
        rw [List.cons_append, List.cons_append, scanMultiBasic_letter rfl, ih, push_some]
    · have hescape := escapes_escape true c
      obtain ⟨d, ds, hd, hquote, -, -⟩ := hescape.exists_eq_cons hc
      rw [escapeAll_cons_of_ne hc, List.append_assoc]
      refine scan_replicate scanMultiBasic_quote (by simp [hd, hquote]) ?_ hrun
      rw [hescape.scanMultiBasic hc, ih, push_some]

/-! ## Without escapes -/

theorem scanLiteral_of_plain (rest : List Char) : ∀ {s : List Char},
    (∀ c ∈ s, isPlain c ∧ c ≠ '\x27') → scanLiteral (s ++ '\x27' :: rest) = some (s, rest)
  | [], _ => rfl
  | c :: s, h => by
    obtain ⟨hplain, hquote⟩ := h c List.mem_cons_self
    have ih := scanLiteral_of_plain rest fun d hd => h d (List.mem_cons_of_mem c hd)
    rw [List.cons_append, scanLiteral.eq_3 _ _ (by simp [hquote]), if_pos hplain, ih, push_some]

/-- At most so many of a character in a row, with `run` of them before the text. -/
def RunsWithin (c : Char) (limit : Nat) : Nat → List Char → Prop
  | run, [] => run ≤ limit
  | run, d :: s => run ≤ limit ∧ RunsWithin c limit (if d = c then run + 1 else 0) s

theorem runsWithin_of_foldl {c : Char} {limit : Nat} : ∀ (s : List Char) {longest run : Nat},
    (s.foldl (fun (longest, run) d =>
      let run := if d = c then run + 1 else 0
      (max longest run, run)) (longest, run)).1 ≤ limit →
    longest ≤ limit ∧ (run ≤ longest → RunsWithin c limit run s)
  | [], longest, run, h => ⟨h, fun hrun => hrun.trans h⟩
  | d :: s, longest, run, h => by
    obtain ⟨hmax, hruns⟩ := runsWithin_of_foldl s h
    have hlongest := (le_max_left _ _).trans hmax
    exact ⟨hlongest, fun hrun => ⟨hrun.trans hlongest, hruns (le_max_right _ _)⟩⟩

theorem runsWithin_of_longestRun {c : Char} {limit : Nat} {s : List Char}
    (h : longestRun c s ≤ limit) : RunsWithin c limit 0 s :=
  (runsWithin_of_foldl s h).2 le_rfl

theorem RunsWithin.ne {c : Char} : ∀ {s : List Char} {run : Nat}, RunsWithin c 0 run s →
    ∀ d ∈ s, d ≠ c
  | d :: s, run, ⟨hrun, h⟩, e, he => by
    split_ifs at h with hd
    · cases s <;> simp [RunsWithin] at h
    · rcases List.mem_cons.1 he with rfl | he
      · exact hd
      · exact h.ne e he

theorem scanMultiLiteral_quote {cs : List Char} (h : ∀ tail, cs ≠ '\x27' :: '\x27' :: tail) :
    scanMultiLiteral ('\x27' :: cs) = push (some '\x27') (scanMultiLiteral cs) := by
  rw [scanMultiLiteral.eq_7]
  · rfl
  all_goals simp_all

theorem scanMultiLiteral_char {c : Char} (hquote : c ≠ '\x27') (hc : isPlain c ∨ c = '\n')
    (cs : List Char) : scanMultiLiteral (c :: cs) = push (some c) (scanMultiLiteral cs) := by
  rcases hc with hc | rfl
  · have hnewline : c ≠ '\n' := by rintro rfl; cases hc
    have hreturn : c ≠ '\r' := by rintro rfl; cases hc
    rw [scanMultiLiteral.eq_7, if_pos hc]
    all_goals simp_all
  · rfl

theorem scanMultiLiteral_quotes {rest : List Char} (hrest : rest.head? ≠ some '\x27') {run : Nat}
    (hrun : run ≤ 2) :
    scanMultiLiteral (List.replicate run '\x27' ++ (singleQuotes ++ rest))
      = some (List.replicate run '\x27', rest) := by
  have hne : ∀ tail, rest ≠ '\x27' :: tail := by
    rintro tail rfl
    exact hrest rfl
  interval_cases run
  · exact scanMultiLiteral.eq_4 _ (fun tail => hne _) hne
  · exact scanMultiLiteral.eq_3 _ hne
  · exact scanMultiLiteral.eq_2 _

theorem scanMultiLiteral_of_runs {rest : List Char} (hrest : rest.head? ≠ some '\x27') :
    ∀ {s : List Char} {run : Nat}, RunsWithin '\x27' 2 run s →
      (∀ c ∈ s, isPlain c ∨ c = '\n') →
      scanMultiLiteral (List.replicate run '\x27' ++ (s ++ (singleQuotes ++ rest)))
        = some (List.replicate run '\x27' ++ s, rest)
  | [], run, hrun, _ => by
    rw [List.nil_append, List.append_nil, scanMultiLiteral_quotes hrest hrun]
  | c :: s, run, ⟨hrun, hruns⟩, hs => by
    have ih := scanMultiLiteral_of_runs hrest hruns fun d hd => hs d (List.mem_cons_of_mem c hd)
    split_ifs at ih with hc
    · rw [List.replicate_succ', List.append_assoc, List.append_assoc] at ih
      exact hc ▸ ih
    · refine scan_replicate scanMultiLiteral_quote (by simp [hc]) ?_ hrun
      simp only [List.replicate_zero, List.nil_append] at ih
      rw [List.cons_append, scanMultiLiteral_char hc (hs c List.mem_cons_self), ih, push_some]

/-! ## Styles -/

theorem isPlain_of_not_needsCode {c : Char} (h : needsCode c = false) : isPlain c ∨ c = '\n' := by
  by_cases hnewline : c = '\n'
  · exact .inr hnewline
  · simp only [needsCode, ne_eq, hnewline, not_false_eq_true, decide_true, Bool.and_true,
      Bool.and_eq_false_iff, decide_eq_false_iff_not, not_not, Bool.or_eq_false_iff, not_lt] at h
    left
    simpa [isPlain] using h

theorem styleOf_eq_literal {s : List Char} (h : styleOf s = .literal) :
    s ≠ [] ∧ (∀ c ∈ s, needsCode c = false) ∧ longestRun '\x27' s = 0 ∧ '\n' ∉ s := by
  have hne : s ≠ [] := by
    rintro rfl
    cases h
  simp only [styleOf] at h
  split_ifs at h with hbasic hliteral
  simp_all

theorem styleOf_eq_multiLiteral {s : List Char} (h : styleOf s = .multiLiteral) :
    (∀ c ∈ s, needsCode c = false) ∧ longestRun '\x27' s ≤ 2 := by
  simp only [styleOf] at h
  split_ifs at h with hbasic hliteral hmulti hliterals
  simp_all

/-- Of two line breaks only the one in front is passed over; where there is none, the string has to
start with something else. -/
theorem skipFirstNewline_lead {s cs : List Char} (h : '\n' ∉ s → newline? cs = none) :
    skipFirstNewline (lead s ++ cs) = cs := by
  unfold lead
  split_ifs with hs
  · rfl
  · rw [List.nil_append, skipFirstNewline, h (by simpa using hs)]
    rfl

theorem newline?_of_ne {c : Char} (hnewline : c ≠ '\n') (hreturn : c ≠ '\r') (cs : List Char) :
    newline? (c :: cs) = none := by
  unfold newline?
  split <;> simp_all

theorem newline?_escapeAll {s : List Char} (h : '\n' ∉ s) (cs : List Char) :
    newline? (escapeAll true 0 s ++ (quotes ++ cs)) = none := by
  cases s with
  | nil => rfl
  | cons c s =>
    rw [List.mem_cons, not_or] at h
    by_cases hc : c = '"'
    · rw [hc, escapeAll_true_quote (by decide)]
      rfl
    · obtain ⟨d, ds, hd, -, hreturn, hnewline⟩ := (escapes_escape true c).exists_eq_cons hc
      rw [escapeAll_cons_of_ne hc, hd]
      exact newline?_of_ne (fun heq => h.1 (hnewline heq).symm) hreturn _

theorem newline?_of_not_needsCode {s : List Char} (hs : ∀ c ∈ s, needsCode c = false)
    (h : '\n' ∉ s) (cs : List Char) : newline? (s ++ (singleQuotes ++ cs)) = none := by
  cases s with
  | nil => rfl
  | cons c s =>
    rw [List.mem_cons, not_or] at h
    have hreturn : c ≠ '\r' := by
      rintro rfl
      cases hs _ List.mem_cons_self
    exact newline?_of_ne (Ne.symm h.1) hreturn _

theorem scanString_basic {cs : List Char} (h : ∀ tail, cs ≠ '"' :: '"' :: tail) :
    scanString ('"' :: cs) = scanBasic cs := by
  rw [scanString.eq_2]
  exact h

theorem scanString_literal {cs : List Char} (h : ∀ tail, cs ≠ '\x27' :: '\x27' :: tail) :
    scanString ('\x27' :: cs) = scanLiteral cs := by
  rw [scanString.eq_4]
  exact h

theorem scanString_multiBasic (cs : List Char) :
    scanString (quotes ++ cs) = scanMultiBasic false (skipFirstNewline cs) := rfl

theorem scanString_multiLiteral (cs : List Char) :
    scanString (singleQuotes ++ cs) = scanMultiLiteral (skipFirstNewline cs) := rfl

theorem escapeAll_false_ne {s rest : List Char} (hrest : NoQuote rest) (tail : List Char) :
    escapeAll false 0 s ++ '"' :: rest ≠ '"' :: '"' :: tail := by
  cases s with
  | nil =>
    intro heq
    exact (hrest '"' (by rw [(List.cons.inj heq).2]; rfl)).1 rfl
  | cons c s =>
    by_cases hc : c = '"'
    · rw [hc, escapeAll_false_quote]
      simp
    · obtain ⟨d, ds, hd, hquote, -⟩ := (escapes_escape false c).exists_eq_cons hc
      rw [escapeAll_cons_of_ne hc, hd]
      simp [hquote]

/-- A string is read back whatever style it is quoted in. -/
theorem scanString_quote (text : String) {rest : List Char} (hrest : NoQuote rest) :
    scanString (quote text ++ rest) = some (text.toList, rest) := by
  have hquote : rest.head? ≠ some '"' := fun h => (hrest _ h).1 rfl
  have hsingle : rest.head? ≠ some '\x27' := fun h => (hrest _ h).2 rfl
  unfold quote
  cases hstyle : styleOf text.toList with
  | basic =>
    simp only [hstyle, List.cons_append, List.append_assoc, List.nil_append]
    rw [scanString_basic (escapeAll_false_ne hrest), scanBasic_escapeAll]
  | literal =>
    obtain ⟨hne, hcode, hruns, hnewline⟩ := styleOf_eq_literal hstyle
    have hsingles := (runsWithin_of_longestRun (le_of_eq hruns)).ne
    have hplain : ∀ c ∈ text.toList, isPlain c ∧ c ≠ '\x27' := fun c hc =>
      ⟨(isPlain_of_not_needsCode (hcode c hc)).resolve_right (ne_of_mem_of_not_mem hc hnewline),
        hsingles c hc⟩
    obtain ⟨c, s, hs⟩ := List.exists_cons_of_ne_nil hne
    simp only [hstyle, List.cons_append, List.append_assoc, List.nil_append]
    rw [scanString_literal, scanLiteral_of_plain rest hplain]
    intro tail heq
    rw [hs] at heq
    exact hsingles c (by simp [hs]) (List.cons.inj heq).1
  | multiBasic =>
    simp only [hstyle, List.append_assoc]
    rw [scanString_multiBasic, skipFirstNewline_lead fun h => newline?_escapeAll h rest]
    exact scanMultiBasic_escapeAll hquote text.toList (Nat.zero_le 2)
  | multiLiteral =>
    obtain ⟨hcode, hruns⟩ := styleOf_eq_multiLiteral hstyle
    simp only [hstyle, List.append_assoc]
    rw [scanString_multiLiteral,
      skipFirstNewline_lead fun h => newline?_of_not_needsCode hcode h rest]
    exact scanMultiLiteral_of_runs hsingle (runsWithin_of_longestRun hruns)
      fun c hc => isPlain_of_not_needsCode (hcode c hc)

end Lineage.Toml
