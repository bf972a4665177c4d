import Lineage.Proofs.Failures

/-!
# Which spellings are read

A caller may put separators into a spelling and change the case of its letters (`Varies`); that
never changes what is read. What is read is spelled with ASCII letters, ASCII digits and separators
alone (`IsSpelling`), with one exception: lower-casing takes one character from beyond ASCII into
it, the Kelvin sign to `k`, and among the words of all graphs, scopes and views only `mock` has a
`k`. What lower-casing does beyond ASCII is a fact about the runs of the table (`caseRanges_lower`).
-/

namespace Lineage

/-! ## Lower case and ASCII -/

/-- The Kelvin sign as the letter it is lower-cased to. -/
def withoutKelvin (c : Char) : Char := if c = kelvin then 'k' else c

theorem char_of_forall_lt {b : Nat} {p : Char → Prop} (h : ∀ n < b, p (Char.ofNat n)) {c : Char}
    (hc : c.toNat < b) : p c := by
  simpa only [Char.ofNat_toNat] using h c.toNat hc

theorem toNat_lt_of_isAlphanum {c : Char} (hc : c.isAlphanum) : c.toNat < 128 := by
  have hbelow {d : Char} (hd : d.toNat < 128) (h : c.val ≤ d.val) : c.toNat < 128 :=
    Nat.lt_of_le_of_lt (UInt32.le_iff_toNat_le.1 h) hd
  rcases Bool.or_eq_true_iff.1 hc with halpha | hdigit
  · rcases Bool.or_eq_true_iff.1 halpha with hupper | hlower
    · exact hbelow (d := 'Z') (by decide) (of_decide_eq_true hupper).2
    · exact hbelow (d := 'z') (by decide) (of_decide_eq_true (Bool.and_eq_true_iff.1 hlower).2)
  · exact hbelow (d := '9') (by decide) (of_decide_eq_true (Bool.and_eq_true_iff.1 hdigit).2)

theorem toLower_of_le {c : Char} (hc : 128 ≤ c.toNat) : c.toLower = c := by
  have hval : 128 ≤ c.val.toNat := hc
  refine dif_neg ?_
  simp only [UInt32.le_iff_toNat_le]
  grind

theorem toLower_lt_iff {c : Char} : c.toLower.toNat < 128 ↔ c.toNat < 128 := by
  refine ⟨fun h => ?_, fun h => ?_⟩
  · by_contra hc
    rw [toLower_of_le (by omega)] at h
    exact hc h
  · exact char_of_forall_lt (p := fun c => c.toLower.toNat < 128) (by decide) h

theorem isAlphanum_of_toLower {c : Char} (hc : c.toNat < 128) :
    c.toLower.isAlphanum → c.isAlphanum :=
  char_of_forall_lt (p := fun c => c.toLower.isAlphanum → c.isAlphanum) (by decide) hc

theorem isSeparator_toLower (c : Char) : isSeparator c.toLower = isSeparator c := by
  by_cases hc : c.toNat < 128
  · exact char_of_forall_lt (p := fun c => isSeparator c.toLower = isSeparator c) (by decide) hc
  · rw [toLower_of_le (by omega)]

theorem isSeparator_withoutKelvin (c : Char) : isSeparator (withoutKelvin c) = isSeparator c := by
  unfold withoutKelvin
  split_ifs with hc
  · rw [hc]
    decide
  · rfl

/-- Only the run of the Kelvin sign leads into ASCII. -/
theorem caseRanges_lower :
    ∀ r ∈ caseRanges, r.first = kelvin.toNat ∧ r.last = kelvin.toNat ∨ 128 ≤ r.lower := by
  decide +kernel

theorem lowerCase_of_lt {c : Char} (hc : c.toNat < 128) : lowerCase c = [c.toLower] :=
  if_pos hc

theorem not_isAlphanum_ofNat {n : Nat} (hn : 128 ≤ n) : ¬ (Char.ofNat n).isAlphanum := by
  intro h
  by_cases hvalid : n.isValidChar
  · have heq : Char.ofNat n = Char.ofNatAux n hvalid := dif_pos hvalid
    rw [heq] at h
    have hlt : n < 128 := toNat_lt_of_isAlphanum h
    omega
  · have heq : Char.ofNat n = '\x00' := dif_neg hvalid
    rw [heq] at h
    exact absurd h (by decide)

theorem eq_kelvin_of_lowerIn? {c : Char} {n : Nat} (hn : lowerIn? caseRanges c.toNat = some n) :
    c = kelvin ∨ 128 ≤ n := by
  obtain ⟨r, hr, rfl⟩ := Option.map_eq_some_iff.1 hn
  have hcontains := List.find?_some hr
  simp only [CaseRange.contains, Bool.and_eq_true, decide_eq_true_eq] at hcontains
  rcases caseRanges_lower r (List.mem_of_find?_eq_some hr) with ⟨hfirst, hlast⟩ | hlower
  · exact .inl (Char.toNat_inj.1 (by omega))
  · exact .inr (by omega)

/-- No other character beyond ASCII has a lower case of ASCII letters and digits. -/
theorem isAlphanum_of_lowerCase {c : Char} (h : ∀ d ∈ lowerCase c, d.isAlphanum) :
    (withoutKelvin c).isAlphanum := by
  by_cases hkelvin : c = kelvin
  · rw [withoutKelvin, if_pos hkelvin]
    decide
  rw [withoutKelvin, if_neg hkelvin]
  by_cases hc : c.toNat < 128
  · exact isAlphanum_of_toLower hc (h _ (by simp [lowerCase_of_lt hc]))
  rw [lowerCase, if_neg hc] at h
  split_ifs at h
  · exact absurd (h '\u0307' (by simp)) (by decide)
  split at h
  · next n hn =>
    have hle := (eq_kelvin_of_lowerIn? hn).resolve_left hkelvin
    exact absurd (h _ List.mem_cons_self) (not_isAlphanum_ofNat hle)
  · exact h c List.mem_cons_self

theorem lowerCase_of_isAlphanum {c : Char} (h : (withoutKelvin c).isAlphanum) :
    lowerCase c = [(withoutKelvin c).toLower] := by
  unfold withoutKelvin at h ⊢
  split_ifs at h ⊢ with hc
  · rw [hc]
    decide
  · exact lowerCase_of_lt (toNat_lt_of_isAlphanum h)

/-- What has the same lower case within ASCII has the same lower case. -/
theorem lowerCase_eq_of_toLower {c d : Char} (h : c.toLower = d.toLower) :
    lowerCase c = lowerCase d := by
  have hiff : c.toNat < 128 ↔ d.toNat < 128 := by rw [← toLower_lt_iff, h, toLower_lt_iff]
  by_cases hc : c.toNat < 128
  · rw [lowerCase_of_lt hc, lowerCase_of_lt (hiff.1 hc), h]
  · rw [toLower_of_le (by omega), toLower_of_le (by omega)] at h
    rw [h]

/-! ## Spellings of words -/

def letters (text : List Char) : List Char := text.filter fun c => !isSeparator c

/-- Without separators, in lower case as far as ASCII goes. -/
def plain (text : String) : String := String.ofList ((letters text.toList).map Char.toLower)

/-- ASCII letters, digits and separators that spell one of the words. -/
structure IsSpelling (text : String) (words : List String) : Prop where
  ascii : ∀ c ∈ text.toList, isSeparator c ∨ c.isAlphanum
  plain_mem : plain text ∈ words

theorem isSpelling_iff {text : String} {words : List String} : IsSpelling text words
    ↔ text.toList.all (fun c => isSeparator c || c.isAlphanum) ∧ plain text ∈ words := by
  simp only [List.all_eq_true, Bool.or_eq_true]
  exact ⟨fun h => ⟨h.ascii, h.plain_mem⟩, fun h => ⟨h.1, h.2⟩⟩

instance (text : String) (words : List String) : Decidable (IsSpelling text words) :=
  decidable_of_iff' _ isSpelling_iff

/-- The text with a `k` for every Kelvin sign. -/
def unkelvin (text : String) : String := String.ofList (text.toList.map withoutKelvin)

theorem unkelvin_of_notMem {text : String} (h : kelvin ∉ text.toList) : unkelvin text = text := by
  have hsame : text.toList.map withoutKelvin = text.toList.map id :=
    List.map_congr_left fun c hc => if_neg (ne_of_mem_of_not_mem hc h)
  rw [unkelvin, hsame, List.map_id, String.ofList_toList]

theorem letters_unkelvin (text : String) :
    letters (unkelvin text).toList = (letters text.toList).map withoutKelvin := by
  simp only [letters, unkelvin, String.toList_ofList, List.filter_map, Function.comp_def,
    isSeparator_withoutKelvin]

theorem forall_letters_iff {text : List Char} :
    (∀ c ∈ letters text, c.isAlphanum) ↔ ∀ c ∈ text, isSeparator c ∨ c.isAlphanum := by
  refine forall_congr' fun c => ?_
  cases h : isSeparator c <;> simp [letters, h]

/-- A text is read as a word of ASCII letters and digits if, with a `k` for every Kelvin sign, it is
a spelling of it. -/
theorem normalize_mem_iff {text : String} {words : List String}
    (hwords : ∀ w ∈ words, w.toList.all Char.isAlphanum) :
    normalize text ∈ words ↔ IsSpelling (unkelvin text) words := by
  have hplain (h : ∀ c ∈ letters text.toList, (withoutKelvin c).isAlphanum) :
      normalize text = plain (unkelvin text) := by
    have hsingle : (letters text.toList).flatMap lowerCase
        = (letters text.toList).flatMap fun c => [(withoutKelvin c).toLower] :=
      List.flatMap_congr fun c hc => lowerCase_of_isAlphanum (h c hc)
    rw [plain, letters_unkelvin, List.map_map]
    exact congrArg String.ofList (hsingle.trans List.map_eq_flatMap.symm)
  have hascii : (∀ c ∈ (unkelvin text).toList, isSeparator c ∨ c.isAlphanum)
      ↔ ∀ c ∈ letters text.toList, (withoutKelvin c).isAlphanum := by
    rw [← forall_letters_iff, letters_unkelvin, List.forall_mem_map]
  refine ⟨fun h => ?_, fun h => ?_⟩
  · have hletters : ∀ c ∈ letters text.toList, (withoutKelvin c).isAlphanum := fun c hc =>
      isAlphanum_of_lowerCase fun d hd => List.all_eq_true.1 (hwords _ h) d (by
        rw [normalize, String.toList_ofList]
        exact List.mem_flatMap.2 ⟨c, hc, hd⟩)
    exact ⟨hascii.2 hletters, hplain hletters ▸ h⟩
  · exact hplain (hascii.1 h.ascii) ▸ h.plain_mem

theorem IsSpelling.kelvin_notMem {text : String} {words : List String}
    (h : IsSpelling text words) : kelvin ∉ text.toList := fun hkelvin =>
  absurd (h.ascii kelvin hkelvin) (by decide)

theorem k_mem_plain_unkelvin {text : String} (h : kelvin ∈ text.toList) :
    'k' ∈ (plain (unkelvin text)).toList := by
  rw [plain, letters_unkelvin, List.map_map, String.toList_ofList]
  exact List.mem_map.2 ⟨kelvin, List.mem_filter.2 ⟨h, by decide⟩, by decide⟩

theorem isSpelling_unkelvin_iff {text : String} {words : List String} :
    IsSpelling (unkelvin text) words
      ↔ IsSpelling text words ∨ kelvin ∈ text.toList ∧ IsSpelling (unkelvin text) words := by
  by_cases hkelvin : kelvin ∈ text.toList
  · simp only [hkelvin, true_and, iff_or_self]
    exact fun h => absurd hkelvin h.kelvin_notMem
  · simp only [hkelvin, false_and, or_false, unkelvin_of_notMem hkelvin]

/-- Without the letter `k` in the words the Kelvin sign spells nothing. -/
theorem isSpelling_unkelvin_iff_of_k_notMem {text : String} {words : List String}
    (hk : ∀ w ∈ words, 'k' ∉ w.toList) :
    IsSpelling (unkelvin text) words ↔ IsSpelling text words := by
  rw [isSpelling_unkelvin_iff, or_iff_left]
  exact fun ⟨hkelvin, h⟩ => hk _ h.plain_mem (k_mem_plain_unkelvin hkelvin)

/-! ## Variants of a spelling -/

/-- One text becomes the other by inserting separators and changing the case of ASCII letters. -/
inductive Varies : List Char → List Char → Prop where
  | nil : Varies [] []
  | recase {c d : Char} {s t : List Char} (hcd : c.toLower = d.toLower) (hst : Varies s t) :
    Varies (c :: s) (d :: t)
  | insert {c : Char} {s t : List Char} (hc : isSeparator c) (hst : Varies s t) : Varies s (c :: t)

theorem Varies.letters_flatMap {s t : List Char} (h : Varies s t) :
    (letters s).flatMap lowerCase = (letters t).flatMap lowerCase := by
  induction h with
  | nil => rfl
  | @recase c d s t hcd _ ih =>
    have hseparator : isSeparator c = isSeparator d := by
      rw [← isSeparator_toLower c, hcd, isSeparator_toLower]
    unfold letters at ih ⊢
    rw [List.filter_cons, List.filter_cons, hseparator]
    split_ifs
    · rw [List.flatMap_cons, List.flatMap_cons, lowerCase_eq_of_toLower hcd, ih]
    · exact ih
  | insert hc _ ih =>
    rw [ih, letters, letters, List.filter_cons_of_neg (by simp [hc])]

theorem Varies.normalize_eq {s t : String} (h : Varies s.toList t.toList) :
    normalize s = normalize t :=
  congrArg String.ofList h.letters_flatMap

/-! ## What is read -/

/-- The words that name the values of a type: of ASCII letters and digits, no two values by the
same. -/
structure Lexicon {α : Type} (all : List α) (words : α → List String) : Prop where
  mem_all : ∀ x, x ∈ all
  isAlphanum : ∀ x, ∀ w ∈ words x, w.toList.all Char.isAlphanum
  eq_of_mem : ∀ x y, ∀ w ∈ words x, w ∈ words y → x = y

theorem Lexicon.find?_eq_some_iff {α : Type} {all : List α} {words : α → List String}
    (h : Lexicon all words) {w : String} {x : α} :
    (all.find? fun y => (words y).contains w) = some x ↔ w ∈ words x := by
  refine ⟨fun hx => ?_, fun hx => ?_⟩
  · have hcontains := List.find?_some hx
    exact List.contains_iff_mem.1 hcontains
  · have hsome : (all.find? fun y => (words y).contains w).isSome :=
      List.find?_isSome.2 ⟨x, h.mem_all x, List.contains_iff_mem.2 hx⟩
    obtain ⟨y, hy⟩ := Option.isSome_iff_exists.1 hsome
    have hcontains := List.find?_some hy
    rw [hy, h.eq_of_mem y x w (List.contains_iff_mem.1 hcontains) hx]

theorem GraphName.lexicon : Lexicon all spellings where
  mem_all g := by cases g <;> decide
  isAlphanum g := by cases g <;> decide
  eq_of_mem g h := by cases g <;> cases h <;> decide

theorem Scope.lexicon : Lexicon all spellings where
  mem_all sc := by cases sc <;> decide
  isAlphanum sc := by cases sc <;> decide
  eq_of_mem sc d := by cases sc <;> cases d <;> decide

theorem View.lexicon : Lexicon all spellings where
  mem_all v := by cases v <;> decide
  isAlphanum v := by cases v <;> decide
  eq_of_mem v w := by cases v <;> cases w <;> decide

theorem GraphName.parse_eq_ok_iff {text : String} {g : GraphName} :
    parse text = .ok g ↔ normalize text ∈ g.spellings := by
  unfold parse
  rw [← lexicon.find?_eq_some_iff]
  cases all.find? fun x => x.spellings.contains (normalize text) <;> simp

theorem Scope.parse_eq_ok_iff {text : String} {sc : Scope} :
    parse text = .ok sc ↔ normalize text ∈ sc.spellings := by
  unfold parse
  rw [← lexicon.find?_eq_some_iff]
  cases all.find? fun x => x.spellings.contains (normalize text) <;> simp

theorem View.parse_eq_ok_iff {text : String} {v : View} :
    parse text = .ok v ↔ normalize text ∈ v.spellings := by
  unfold parse
  rw [← lexicon.find?_eq_some_iff]
  cases all.find? fun x => x.spellings.contains (normalize text) <;> simp

/-- A Kelvin sign in place of the `k` of the synthetic graph. -/
structure SpelledByKelvin (text : String) : Prop where
  kelvin_mem : kelvin ∈ text.toList
  isSpelling : IsSpelling (unkelvin text) GraphName.mock.spellings

theorem GraphName.normalize_mem_spellings_iff {text : String} {g : GraphName} :
    normalize text ∈ g.spellings
      ↔ IsSpelling text g.spellings ∨ g = .mock ∧ SpelledByKelvin text := by
  rw [normalize_mem_iff (lexicon.isAlphanum g)]
  by_cases hg : g = .mock
  · subst hg
    rw [isSpelling_unkelvin_iff]
    exact or_congr_right ⟨fun h => ⟨rfl, h.1, h.2⟩, fun h => ⟨h.2.kelvin_mem, h.2.isSpelling⟩⟩
  · rw [isSpelling_unkelvin_iff_of_k_notMem, or_iff_left fun h => hg h.1]
    cases g <;> first | exact absurd rfl hg | decide

theorem Scope.normalize_mem_spellings_iff {text : String} {sc : Scope} :
    normalize text ∈ sc.spellings ↔ IsSpelling text sc.spellings := by
  rw [normalize_mem_iff (lexicon.isAlphanum sc)]
  exact isSpelling_unkelvin_iff_of_k_notMem (by cases sc <;> decide)

theorem View.normalize_mem_spellings_iff {text : String} {v : View} :
    normalize text ∈ v.spellings ↔ IsSpelling text v.spellings := by
  rw [normalize_mem_iff (lexicon.isAlphanum v)]
  exact isSpelling_unkelvin_iff_of_k_notMem (by cases v <;> decide)

/-- A text is read as the value it spells, and refused, whole and unchanged, if it spells none. -/
structure ReadsSpelling {α : Type} (parse : String → Except RequestError α)
    (words : α → List String) (refusal : String → RequestError) (text : String) : Prop where
  ok_iff : ∀ x, parse text = .ok x ↔ IsSpelling text (words x)
  refuses : (¬ ∃ x, IsSpelling text (words x)) → parse text = .error (refusal text)

/-- Separators and the case of ASCII letters make no difference. -/
def ReadsAlike {α : Type} (parse : String → Except RequestError α) (text : String) : Prop :=
  ∀ variant : String, Varies text.toList variant.toList →
    ∀ x, parse text = .ok x ↔ parse variant = .ok x

section Parsers

variable {α : Type} {parse : String → Except RequestError α} {words : α → List String}
  {refusal : String → RequestError} {text : String}

theorem readsSpelling_of_normalize (hok : ∀ x, parse text = .ok x ↔ normalize text ∈ words x)
    (hspells : ∀ x, normalize text ∈ words x ↔ IsSpelling text (words x))
    (hrefuses : (¬ ∃ x, parse text = .ok x) → parse text = .error (refusal text)) :
    ReadsSpelling parse words refusal text where
  ok_iff x := (hok x).trans (hspells x)
  refuses h := hrefuses fun ⟨x, hx⟩ => h ⟨x, (hspells x).1 ((hok x).1 hx)⟩

theorem readsAlike_of_normalize (hok : ∀ text x, parse text = .ok x ↔ normalize text ∈ words x)
    (text : String) : ReadsAlike parse text := fun _ hvaries x => by
  rw [hok, hok, hvaries.normalize_eq]

end Parsers

theorem GraphName.parse_of_spelledByKelvin {text : String} (h : SpelledByKelvin text) :
    parse text = .ok mock :=
  parse_eq_ok_iff.2 (normalize_mem_spellings_iff.2 (.inr ⟨rfl, h⟩))

/-- Scopes and views are read by their spellings alone. So are graphs, save that the synthetic graph
is also read with a Kelvin sign. -/
theorem readsSpelling_iff (text : String) :
    (ReadsSpelling GraphName.parse GraphName.spellings .invalidSource text
        ↔ ¬ SpelledByKelvin text)
      ∧ (SpelledByKelvin text → GraphName.parse text = .ok .mock)
      ∧ ReadsSpelling Scope.parse Scope.spellings .invalidScope text
      ∧ ReadsSpelling View.parse View.spellings .invalidView text
      ∧ ReadsAlike GraphName.parse text ∧ ReadsAlike Scope.parse text
      ∧ ReadsAlike View.parse text := by
  refine ⟨⟨fun hreads hkelvin => ?_, fun hkelvin => ?_⟩, GraphName.parse_of_spelledByKelvin, ?_, ?_,
    readsAlike_of_normalize (fun _ _ => GraphName.parse_eq_ok_iff) text,
    readsAlike_of_normalize (fun _ _ => Scope.parse_eq_ok_iff) text,
    readsAlike_of_normalize (fun _ _ => View.parse_eq_ok_iff) text⟩
  · have hspelling : IsSpelling text GraphName.mock.spellings :=
      (hreads.ok_iff .mock).1 (GraphName.parse_of_spelledByKelvin hkelvin)
    exact hspelling.kelvin_notMem hkelvin.kelvin_mem
  · exact readsSpelling_of_normalize (fun _ => GraphName.parse_eq_ok_iff)
      (fun _ => GraphName.normalize_mem_spellings_iff.trans (or_iff_left fun h => hkelvin h.2))
      GraphName.parse_of_not_exists
  · exact readsSpelling_of_normalize (fun _ => Scope.parse_eq_ok_iff)
      (fun _ => Scope.normalize_mem_spellings_iff) Scope.parse_of_not_exists
  · exact readsSpelling_of_normalize (fun _ => View.parse_eq_ok_iff)
      (fun _ => View.normalize_mem_spellings_iff) View.parse_of_not_exists

/-- The letter at the end is the Kelvin sign. -/
def kelvinMock : String := "moc\u212a"

theorem parse_kelvinMock :
    GraphName.parse kelvinMock = .ok .mock
      ∧ ¬ IsSpelling kelvinMock GraphName.mock.spellings :=
  ⟨GraphName.parse_of_spelledByKelvin ⟨by decide, by decide⟩, by decide⟩

end Lineage
