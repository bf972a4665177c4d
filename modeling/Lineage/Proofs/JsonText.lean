import Lineage.Json.Reader
import Mathlib.Tactic.Common
import Std.Data.String.ToNat

/-!
# JSON text is read as it was written

Every value, written with any indentation, is read back as it was (`parse_pretty`). What follows a
value in written text is a comma, a line break or nothing (`Ends`), so a number is read to its end
and no further. The length of the written text is fuel enough (`value_layout`).
-/

namespace Lineage.Json

/-! ## Blanks -/

theorem skipBlank_cons {c : Char} (h : isBlank c = false) (cs : List Char) :
    skipBlank (c :: cs) = c :: cs := by
  simp [skipBlank, h]

theorem skipBlank_newline (level : Nat) (cs : List Char) :
    skipBlank (newline level ++ cs) = skipBlank cs := by
  refine List.dropWhile_append_of_pos fun c hc => ?_
  rcases List.mem_cons.1 hc with rfl | hc
  · rfl
  · rw [List.eq_of_mem_replicate hc]
    rfl

/-! ## Strings -/

theorem hexValue?_hexDigit : ∀ n < 16, hexValue? (hexDigit n) = some n := by decide

theorem scanString_plain {c : Char} (hquote : c ≠ '"') (hslash : c ≠ '\\') (hc : 32 ≤ c.toNat)
    (cs : List Char) :
    scanString (c :: cs) = (scanString cs).map fun (ns, rest) => (c.toNat :: ns, rest) := by
  have hplain : ¬ (decide (c.toNat < 32) || decide (c = '\\')) = true := by simp [hslash, hc]
  rw [scanString.eq_def]
  split
  · next heq => cases heq
  · next heq => exact absurd (List.cons.inj heq).1 hquote
  · next heq => exact absurd (List.cons.inj heq).1 hslash
  · next heq => exact absurd (List.cons.inj heq).1 hslash
  · next heq =>
    obtain ⟨rfl, rfl⟩ := List.cons.inj heq
    rw [if_neg hplain]

/-- A character is read back from its escape. -/
theorem scanString_escape (c : Char) (cs : List Char) :
    scanString (escape c ++ cs) = (scanString cs).map fun (ns, rest) => (c.toNat :: ns, rest) := by
  unfold escape
  split_ifs with h₁ h₂ h₃ h₄ h₅ h₆ h₇ h₈
  · subst h₁; rfl
  · subst h₂; rfl
  · subst h₃; rfl
  · subst h₄; rfl
  · subst h₅; rfl
  · subst h₆; rfl
  · subst h₇; rfl
  · have hhigh := hexValue?_hexDigit (c.toNat / 16) (by omega)
    have hlow := hexValue?_hexDigit (c.toNat % 16) (by omega)
    have hcode : hex4? '0' '0' (hexDigit (c.toNat / 16)) (hexDigit (c.toNat % 16))
        = some c.toNat := by
      have hzero : hexValue? '0' = some 0 := rfl
      simp only [hex4?, hhigh, hlow, hzero, Option.bind_eq_bind, Option.bind_some]
      exact congrArg some (by omega)
    simp only [List.cons_append, List.nil_append, scanString, hcode]
  · exact scanString_plain h₁ h₂ (Nat.le_of_not_lt h₈) cs

theorem scanString_quoted (cs rest : List Char) :
    scanString (cs.flatMap escape ++ '"' :: rest) = some (cs.map Char.toNat, rest) := by
  induction cs with
  | nil => rfl
  | cons c cs ih =>
    rw [List.flatMap_cons, List.append_assoc, scanString_escape, ih]
    rfl

theorem not_isSurrogate (c : Char) :
    isHighSurrogate c.toNat = false ∧ isLowSurrogate c.toNat = false := by
  have hvalid : c.toNat < 0xd800 ∨ 0xdfff < c.toNat ∧ c.toNat < 0x110000 := c.valid
  simp only [isHighSurrogate, isLowSurrogate, Bool.and_eq_false_iff, decide_eq_false_iff_not]
  omega

theorem textOf?_map_toNat : ∀ cs : List Char, textOf? (cs.map Char.toNat) = some cs
  | [] => rfl
  | [c] => by simp [textOf?, not_isSurrogate, Char.ofNat_toNat]
  | c :: d :: cs => by
    have ih := textOf?_map_toNat (d :: cs)
    rw [List.map_cons] at ih
    simp [textOf?, not_isSurrogate, Char.ofNat_toNat, ih]

theorem ofCodePoints_map_toNat (s : String) : ofCodePoints (s.toList.map Char.toNat) = .str s := by
  simp only [ofCodePoints, textOf?_map_toNat, String.ofList_toList]

/-! ## Numbers -/

/-- What may follow a value in written text. -/
def Ends (rest : List Char) : Prop := ∀ c, rest.head? = some c → c = ',' ∨ c = '\n'

theorem digits_append {ds rest : List Char} (hds : ∀ c ∈ ds, c.isDigit = true)
    (hrest : ∀ c, rest.head? = some c → c.isDigit = false) :
    Decimal.digits (ds ++ rest) = (ds, rest) := by
  unfold Decimal.digits
  rw [List.takeWhile_append_of_pos hds, List.dropWhile_append_of_pos hds]
  cases rest with
  | nil => simp
  | cons c rest => simp [hrest c rfl]

theorem isDigit_toDigits {n : Nat} {c : Char} (h : c ∈ Nat.toDigits 10 n) : c.isDigit = true :=
  Nat.isDigit_of_mem_toDigits (by decide) (by decide) h

theorem exists_toDigits_eq_cons (n : Nat) :
    ∃ d ds, Nat.toDigits 10 n = d :: ds ∧ d.isDigit = true := by
  rcases hn : Nat.toDigits 10 n with _ | ⟨d, ds⟩
  · exact absurd hn Nat.toDigits_ne_nil
  · have hmem : d ∈ Nat.toDigits 10 n := by
      rw [hn]
      exact List.mem_cons_self
    exact ⟨d, ds, rfl, isDigit_toDigits hmem⟩

/-- No number but zero is written with a leading zero. -/
theorem head?_toDigits (n : Nat) : (Nat.toDigits 10 n).head? = some '0' → n = 0 := by
  induction n using Nat.strongRecOn with
  | ind n ih =>
    by_cases hn : n < 10
    · have hdigit : ∀ m < 10, [m.digitChar].head? = some '0' → m = 0 := by decide
      rw [Nat.toDigits_of_lt_base hn]
      exact hdigit n hn
    · rw [Nat.toDigits_of_base_le (by decide) (Nat.le_of_not_lt hn)]
      rcases hq : Nat.toDigits 10 (n / 10) with _ | ⟨d, ds⟩
      · exact absurd hq Nat.toDigits_ne_nil
      · intro h
        have := ih (n / 10) (by omega) (by rw [hq]; exact h)
        omega

section Scanners

variable {rest : List Char}

theorem Ends.isDigit (h : Ends rest) : ∀ c, rest.head? = some c → c.isDigit = false := by
  intro c hc
  rcases h c hc with rfl | rfl <;> rfl

theorem digits_toDigits (n : Nat) (h : ∀ c, rest.head? = some c → c.isDigit = false) :
    Decimal.digits (Nat.toDigits 10 n ++ rest) = (Nat.toDigits 10 n, rest) :=
  digits_append (fun _ => isDigit_toDigits) h

theorem scanWhole_toDigits (n : Nat) (h : ∀ c, rest.head? = some c → c.isDigit = false) :
    scanWhole (Nat.toDigits 10 n ++ rest) = some (Nat.toDigits 10 n, rest) := by
  have hdigits := digits_toDigits n h
  unfold scanWhole
  rcases hn : Nat.toDigits 10 n with _ | ⟨d, ds⟩
  · exact absurd hn Nat.toDigits_ne_nil
  · rw [hn] at hdigits
    split
    · next rest' heq =>
      obtain ⟨rfl, rfl⟩ := List.cons.inj heq
      have hzero := head?_toDigits n (by rw [hn]; rfl)
      rw [hzero, Nat.toDigits_zero] at hn
      obtain ⟨-, rfl⟩ := List.cons.inj hn
      rfl
    · rw [hdigits]

theorem scanExponentDigits_toDigits (n : Nat) (h : Ends rest) :
    scanExponentDigits (Nat.toDigits 10 n ++ rest) = some (n, rest) := by
  unfold scanExponentDigits
  rw [digits_toDigits n h.isDigit]
  rcases hn : Nat.toDigits 10 n with _ | ⟨d, ds⟩
  · exact absurd hn Nat.toDigits_ne_nil
  · show some (Decimal.value (d :: ds), rest) = some (n, rest)
    rw [← hn, Decimal.value_toDigits]

/-- The exponent as it stands behind the digits. -/
def writeExponent : Option Int → List Char
  | none => []
  | some (.ofNat e) => 'e' :: Nat.toDigits 10 e
  | some (.negSucc e) => 'e' :: '-' :: Nat.toDigits 10 (e + 1)

theorem scanExponent_unsigned {d : Char} (hd : d.isDigit = true) (cs : List Char) :
    scanExponent ('e' :: d :: cs)
      = (scanExponentDigits (d :: cs)).map fun (n, rest) => (some (n : Int), rest) := by
  have hminus : d ≠ '-' := by rintro rfl; cases hd
  have hplus : d ≠ '+' := by rintro rfl; cases hd
  simp [scanExponent, hminus, hplus]

theorem scanExponent_negative (cs : List Char) :
    scanExponent ('e' :: '-' :: cs)
      = (scanExponentDigits cs).map fun (n, rest) => (some (-(n : Int)), rest) :=
  rfl

theorem scanExponent_writeExponent (e : Option Int) (h : Ends rest) :
    scanExponent (writeExponent e ++ rest) = some (e, rest) := by
  rcases e with _ | n | n
  · cases rest with
    | nil => rfl
    | cons c rest =>
      have hc : ¬ (c = 'e' ∨ c = 'E') := by
        rcases h c rfl with rfl | rfl <;> decide
      simp [writeExponent, scanExponent, hc]
  · have hscan := scanExponentDigits_toDigits n h
    obtain ⟨d, ds, hn, hd⟩ := exists_toDigits_eq_cons n
    rw [hn, List.cons_append] at hscan
    rw [writeExponent, hn, List.cons_append, List.cons_append, scanExponent_unsigned hd, hscan]
    rfl
  · have hscan := scanExponentDigits_toDigits (n + 1) h
    rw [writeExponent, List.cons_append, List.cons_append, scanExponent_negative, hscan]
    rfl

/-- Behind the digits of a number stands no other digit, and no point. -/
theorem head?_writeExponent (e : Option Int) (h : Ends rest) :
    ∀ c, (writeExponent e ++ rest).head? = some c → c.isDigit = false ∧ c ≠ '.' := by
  intro c hc
  rcases e with _ | n | n
  · rcases h c hc with rfl | rfl <;> exact ⟨rfl, by decide⟩
  · cases hc
    exact ⟨rfl, by decide⟩
  · cases hc
    exact ⟨rfl, by decide⟩

theorem scanFraction_of_head? {cs : List Char} (h : ∀ c, cs.head? = some c → c ≠ '.') :
    scanFraction cs = some ([], cs) := by
  unfold scanFraction
  split
  · exact absurd rfl (h '.' rfl)
  · rfl

theorem scanUnsigned_write (negative : Bool) (n : Nat) (e : Option Int) (h : Ends rest) :
    scanUnsigned negative (Nat.toDigits 10 n ++ (writeExponent e ++ rest))
      = some (⟨negative, n, e⟩, rest) := by
  have hbehind := head?_writeExponent e h
  unfold scanUnsigned
  rw [scanWhole_toDigits n fun c hc => (hbehind c hc).1]
  simp only [Option.bind_eq_bind, Option.bind_some]
  rw [scanFraction_of_head? fun c hc => (hbehind c hc).2]
  simp only [Option.bind_some]
  rw [scanExponent_writeExponent e h]
  simp [Decimal.value_toDigits]

theorem scanNumber_write (d : Decimal) (h : Ends rest) :
    scanNumber (d.write ++ rest) = some (d, rest) := by
  obtain ⟨negative, n, e⟩ := d
  have hwrite : Decimal.write ⟨negative, n, e⟩
      = (if negative then ['-'] else []) ++ Nat.toDigits 10 n ++ writeExponent e := by
    rcases e with _ | e | e <;> rfl
  have hscan := scanUnsigned_write negative n e h
  rw [hwrite, List.append_assoc, List.append_assoc]
  cases negative with
  | true => exact hscan
  | false =>
    obtain ⟨c, cs, hn, hc⟩ := exists_toDigits_eq_cons n
    have hminus : c ≠ '-' := by rintro rfl; cases hc
    rw [hn] at hscan ⊢
    simp only [Bool.false_eq_true, ↓reduceIte, List.nil_append, List.cons_append] at hscan ⊢
    rw [scanNumber.eq_2 _ fun rest heq => hminus (List.cons.inj heq).1]
    exact hscan

end Scanners

/-! ## Values -/

section Values

variable {fuel : Nat} {cs text rest : List Char}

theorem value_arr (h : skipBlank cs = '[' :: text) (hne : ∀ r, skipBlank text ≠ ']' :: r) :
    value (fuel + 1) cs = (items fuel (skipBlank text)).map fun (xs, rest) => (.arr xs, rest) := by
  rw [value, h]
  simp only

theorem value_obj (h : skipBlank cs = '\x7b' :: text) (hne : ∀ r, skipBlank text ≠ '\x7d' :: r) :
    value (fuel + 1) cs
      = (members fuel (skipBlank text)).map fun (ms, rest) => (ofMembers ms, rest) := by
  rw [value, h]
  simp only

theorem value_num {c : Char} (h : skipBlank cs = c :: text) (hc : c = '-' ∨ c.isDigit = true) :
    value (fuel + 1) cs = (scanNumber (c :: text)).map fun (d, rest) => (.num d, rest) := by
  rw [value, h]
  split
  all_goals first | rfl | skip
  all_goals
    next heq =>
    obtain ⟨rfl, -⟩ := List.cons.inj heq
    rcases hc with hc | hc <;> cases hc

/-- What a number starts with. -/
theorem exists_write_eq_cons (d : Decimal) :
    ∃ c cs, d.write = c :: cs ∧ (c = '-' ∨ c.isDigit = true) := by
  obtain ⟨c, cs, hn, hc⟩ := exists_toDigits_eq_cons d.significand
  unfold Decimal.write
  rw [hn]
  cases d.negative with
  | true => exact ⟨_, _, rfl, .inl rfl⟩
  | false => exact ⟨_, _, rfl, .inr hc⟩

/-- A written value starts with no blank and no closing bracket. -/
theorem exists_layout_eq_cons (level : Nat) (j : Json) :
    ∃ c cs, layout level j = c :: cs ∧ isBlank c = false ∧ c ≠ ']' := by
  rcases j with _ | (_ | _) | d | s | (_ | ⟨x, xs⟩) | (_ | ⟨⟨k, x⟩, ms⟩) | _
  case num =>
    obtain ⟨c, cs, hd, hc⟩ := exists_write_eq_cons d
    refine ⟨c, cs, hd, ?_, ?_⟩
    · rcases hc with rfl | hc
      · rfl
      · unfold isBlank
        simp only [Bool.or_eq_false_iff, decide_eq_false_iff_not]
        refine ⟨⟨⟨?_, ?_⟩, ?_⟩, ?_⟩ <;> rintro rfl <;> cases hc
    · rintro rfl
      rcases hc with hc | hc <;> cases hc
  all_goals exact ⟨_, _, rfl, rfl, by decide⟩

theorem skipBlank_layout (level : Nat) (j : Json) (rest : List Char) :
    skipBlank (layout level j ++ rest) = layout level j ++ rest := by
  obtain ⟨c, cs, hj, hc, -⟩ := exists_layout_eq_cons level j
  rw [hj]
  exact skipBlank_cons hc _

theorem ends_newline (level : Nat) (cs : List Char) : Ends (newline level ++ cs) := by
  intro c hc
  cases hc
  exact .inr rfl

theorem ends_layoutItems {level : Nat} (xs : List Json) (h : Ends rest) :
    Ends (layoutItems level xs ++ rest) := by
  cases xs with
  | nil => exact h
  | cons x xs =>
    intro c hc
    cases hc
    exact .inl rfl

theorem ends_layoutMembers {level : Nat} (ms : List (String × Json)) (h : Ends rest) :
    Ends (layoutMembers level ms ++ rest) := by
  cases ms with
  | nil => exact h
  | cons m ms =>
    intro c hc
    cases hc
    exact .inl rfl

theorem scanString_quote (s : String) (rest : List Char) :
    ∃ text, quote s ++ rest = '"' :: text ∧ scanString text = some (s.toList.map Char.toNat, rest)
    := by
  refine ⟨s.toList.flatMap escape ++ '"' :: rest, ?_, scanString_quoted _ _⟩
  rw [quote, List.append_assoc]
  rfl

theorem skipBlank_quote (s : String) (rest : List Char) :
    skipBlank (quote s ++ rest) = quote s ++ rest :=
  skipBlank_cons rfl _

theorem consMember_map_toNat (k : String) (x : Json) (ms : List (String × Json)) :
    consMember (k.toList.map Char.toNat) x (some ms) = some ((k, x) :: ms) := by
  simp only [consMember, textOf?_map_toNat, Option.bind_eq_bind, Option.bind_some,
    String.ofList_toList]
  rfl

end Values

mutual

/-- A value is read back from its text; every call takes a character at least. -/
theorem value_layout : ∀ (j : Json) {level fuel : Nat} {cs rest : List Char},
    skipBlank cs = layout level j ++ rest → (layout level j).length ≤ fuel → Ends rest →
      value fuel cs = some (j, rest)
  | j, level, 0, _, _, _, hfuel, _ => by
    obtain ⟨c, cs, hj, -⟩ := exists_layout_eq_cons level j
    rw [hj] at hfuel
    cases hfuel
  | .null, _, fuel + 1, cs, rest, h, _, _ => by
    rw [value, h]
    rfl
  | .bool true, _, fuel + 1, cs, rest, h, _, _ => by
    rw [value, h]
    rfl
  | .bool false, _, fuel + 1, cs, rest, h, _, _ => by
    rw [value, h]
    rfl
  | .num d, _, fuel + 1, cs, rest, h, _, hends => by
    obtain ⟨c, text, hd, hc⟩ := exists_write_eq_cons d
    have hscan := scanNumber_write d hends
    have h : skipBlank cs = d.write ++ rest := h
    rw [hd] at h hscan
    rw [value_num h hc]
    exact (congrArg (Option.map _) hscan).trans rfl
  | .str s, _, fuel + 1, cs, rest, h, _, _ => by
    obtain ⟨text, htext, hscan⟩ := scanString_quote s rest
    have h : skipBlank cs = quote s ++ rest := h
    rw [value, h, htext]
    simp only [hscan, Option.map_some, ofCodePoints_map_toNat]
  | .arr [], _, fuel + 1, cs, rest, h, _, _ => by
    rw [value, h]
    rfl
  | .arr (x :: xs), level, fuel + 1, cs, rest, h, hfuel, _ => by
    simp only [layout, List.append_assoc, List.cons_append, List.nil_append] at h
    have hskip := (skipBlank_newline (level + 1) _).trans (skipBlank_layout (level + 1) x
      (layoutItems (level + 1) xs ++ (newline level ++ ']' :: rest)))
    have hne : ∀ r, layout (level + 1) x
        ++ (layoutItems (level + 1) xs ++ (newline level ++ ']' :: rest)) ≠ ']' :: r := by
      obtain ⟨c, cs, hx, -, hc⟩ := exists_layout_eq_cons (level + 1) x
      rw [hx]
      exact fun r heq => hc (List.cons.inj heq).1
    have hlength : (layout (level + 1) x).length + (layoutItems (level + 1) xs).length < fuel := by
      simp only [layout, newline, List.length_append, List.length_cons] at hfuel
      omega
    rw [value_arr h (by rw [hskip]; exact hne), hskip,
      items_layout x xs (skipBlank_layout _ _ _) hlength]
    rfl
  | .obj [], _, fuel + 1, cs, rest, h, _, _ => by
    rw [value, h]
    rfl
  | .obj ((k, x) :: ms), level, fuel + 1, cs, rest, h, hfuel, _ => by
    simp only [layout, List.append_assoc, List.cons_append, List.nil_append] at h
    have hskip := (skipBlank_newline (level + 1) _).trans (skipBlank_quote k (':' :: ' ' ::
      (layout (level + 1) x ++ (layoutMembers (level + 1) ms ++ (newline level ++ '\x7d' :: rest)))))
    have hlength : (layout (level + 1) x).length + (layoutMembers (level + 1) ms).length < fuel := by
      simp only [layout, newline, List.length_append, List.length_cons] at hfuel
      omega
    rw [value_obj h (by rw [hskip]; rintro r ⟨⟩), hskip,
      members_layout k x ms (skipBlank_quote _ _) hlength]
    rfl
  | .garbled, _, fuel + 1, cs, rest, h, _, _ => by
    rw [value, h]
    rfl
termination_by structural _ _ fuel => fuel

/-- The items of an array are read back, to behind the bracket. -/
theorem items_layout : ∀ (x : Json) (xs : List Json) {level outer fuel : Nat} {cs rest : List Char},
    skipBlank cs = layout level x ++ (layoutItems level xs ++ (newline outer ++ ']' :: rest)) →
    (layout level x).length + (layoutItems level xs).length < fuel →
      items fuel cs = some (x :: xs, rest)
  | x, xs, level, outer, fuel + 1, cs, rest, h, hfuel => by
    have hvalue : value fuel cs = some (x, layoutItems level xs ++ (newline outer ++ ']' :: rest)) :=
      value_layout x h (by omega) (ends_layoutItems xs (ends_newline _ _))
    rw [items, hvalue]
    simp only [Option.bind_eq_bind, Option.bind_some]
    cases xs with
    | nil =>
      have hskip := skipBlank_newline outer (']' :: rest)
      rw [layoutItems, List.nil_append, hskip]
      rfl
    | cons y ys =>
      simp only [layoutItems, List.append_assoc, List.cons_append]
      have hskip := (skipBlank_newline level _).trans (skipBlank_layout level y
        (layoutItems level ys ++ (newline outer ++ ']' :: rest)))
      have hlength : (layout level y).length + (layoutItems level ys).length < fuel := by
        simp only [layoutItems, newline, List.length_append, List.length_cons] at hfuel
        omega
      rw [skipBlank_cons rfl]
      simp only [items_layout y ys hskip hlength]
      rfl
termination_by structural _ _ _ _ fuel => fuel

/-- The members of an object are read back, to behind the brace. -/
theorem members_layout : ∀ (k : String) (x : Json) (ms : List (String × Json))
    {level outer fuel : Nat} {cs rest : List Char},
    skipBlank cs = quote k ++ (':' :: ' ' :: (layout level x
      ++ (layoutMembers level ms ++ (newline outer ++ '\x7d' :: rest)))) →
    (layout level x).length + (layoutMembers level ms).length < fuel →
      members fuel cs = some (some ((k, x) :: ms), rest)
  | k, x, ms, level, outer, fuel + 1, cs, rest, h, hfuel => by
    obtain ⟨text, htext, hscan⟩ := scanString_quote k (':' :: ' ' :: (layout level x
      ++ (layoutMembers level ms ++ (newline outer ++ '\x7d' :: rest))))
    have hvalue : value fuel (' ' :: (layout level x
        ++ (layoutMembers level ms ++ (newline outer ++ '\x7d' :: rest))))
          = some (x, layoutMembers level ms ++ (newline outer ++ '\x7d' :: rest)) :=
      value_layout x (skipBlank_layout level x _) (by omega)
        (ends_layoutMembers ms (ends_newline _ _))
    rw [members, h, htext]
    simp only [hscan, Option.bind_eq_bind, Option.bind_some]
    rw [skipBlank_cons rfl]
    simp only [hvalue, Option.bind_some]
    cases ms with
    | nil =>
      have hskip := skipBlank_newline outer ('\x7d' :: rest)
      rw [layoutMembers, List.nil_append, hskip, skipBlank_cons rfl]
      simp only [consMember_map_toNat]
      rfl
    | cons m ms =>
      obtain ⟨k', y⟩ := m
      simp only [layoutMembers, List.append_assoc, List.cons_append]
      have hskip := (skipBlank_newline level _).trans (skipBlank_quote k' (':' :: ' ' ::
        (layout level y ++ (layoutMembers level ms ++ (newline outer ++ '\x7d' :: rest)))))
      have hlength : (layout level y).length + (layoutMembers level ms).length < fuel := by
        simp only [layoutMembers, newline, List.length_append, List.length_cons] at hfuel
        omega
      rw [skipBlank_cons rfl]
      simp only [members_layout k' y ms hskip hlength, Option.bind_some, consMember_map_toNat]
      rfl
termination_by structural _ _ _ _ _ fuel => fuel

end

/-- Every value is read back from its text. -/
theorem parse_pretty (j : Json) : parse (pretty j) = some j := by
  have hvalue : value (2 * (layout 0 j).length + 2) (layout 0 j) = some (j, []) := by
    have hskip := skipBlank_layout 0 j []
    rw [List.append_nil] at hskip
    refine value_layout j (hskip.trans (List.append_nil _).symm) ?_ fun c hc => nomatch hc
    omega
  unfold parse pretty
  rw [String.toList_ofList]
  simp only [hvalue]
  rfl

end Lineage.Json
