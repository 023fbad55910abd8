import Mathlib.Computability.Language
import ShiftReduce.Lex.Cursor
import ShiftReduce.Proofs.WireLine

/-! # The lexemes of a text

Each class of lexemes is a regular language. The first character of a lexeme tells its class, but
for a number, which is real if it has a point or an exponent. So no word lies in two classes.
-/

namespace ShiftReduce

open scoped Computability

/-! ## Languages -/

/-- The words of one character. -/
def oneOf (p : Char → Bool) : Language Char := {w | ∃ c, p c = true ∧ w = [c]}

/-- One or more words of a language. -/
def repeated (l : Language Char) : Language Char := l * l∗

def digits : Language Char := repeated (oneOf Text.isScanned)

def exponent : Language Char :=
  oneOf (fun c => c == 'e' || c == 'E') * (1 + oneOf fun c => c == '+' || c == '-') * digits

/-- What makes a number real: a point, with digits and an exponent that may be missing, or an
exponent. -/
def fraction : Language Char :=
  oneOf (· == '.') * ((oneOf Text.isScanned)∗ * (1 + exponent)) + exponent

/-- A backslash and the character behind it, or a character that stands for itself. -/
def stringItem (q : Char) : Language Char :=
  oneOf (· == '\\') * oneOf (· != '\n') + oneOf fun c => c != q && c != '\\' && c != '\n'

def quotedBy (q : Char) : Language Char := oneOf (· == q) * (stringItem q)∗ * oneOf (· == q)

inductive Lexeme where
  | blank
  | comment
  | newline
  | real
  | integer
  | name
  | doubleQuoted
  | singleQuoted
  | punctuation
deriving DecidableEq

namespace Lexeme

/-- The white space of a line. -/
def blanks : List Char := [' ', '\t', '\r', '\x0c', '\x0b']

/-- The characters that are lexemes on their own. -/
def singles : List Char :=
  ['[', ']', '{', '}', '(', ')', '&', '*', '\\', '^', ':', ',', '$', '=', '-', '.', '|', '+', '?',
    '/', ';']

def isLetter (c : Char) : Bool := ('A' ≤ c && c ≤ 'Z') || ('a' ≤ c && c ≤ 'z') || c == '_'

def isLetterOrDigit (c : Char) : Bool := isLetter c || ('0' ≤ c && c ≤ '9')

def language : Lexeme → Language Char
  | .blank => repeated (oneOf blanks.contains)
  | .comment => oneOf (· == '#') * (oneOf (· != '\n'))∗
  | .newline => oneOf (· == '\n')
  | .real =>
    digits * oneOf (· == '.') * (oneOf Text.isScanned)∗ * (1 + exponent) + digits * exponent
  | .integer => digits
  | .name => oneOf isLetter * (oneOf isLetterOrDigit)∗
  | .doubleQuoted => quotedBy '"'
  | .singleQuoted => quotedBy '\''
  | .punctuation => oneOf singles.contains

/-- The terminal that a lexeme is a token of. Blanks and comments are no tokens. -/
def terminal? (k : Lexeme) (w : List Char) : Option String :=
  match k with
  | .blank => none
  | .comment => none
  | .newline => some "nl"
  | .real => some "float"
  | .integer => some "integer"
  | .name =>
    some (if w = "set".toList then "kw_set" else if w = "unset".toList then "kw_unset" else "ident")
  | .doubleQuoted => some "string_d"
  | .singleQuoted => some "string_s"
  | .punctuation => w.head?.bind Span.punctuation?

def isString (k : Lexeme) : Bool := k == .doubleQuoted || k == .singleQuoted

end Lexeme

/-! ## The same rows in the predicates of the scanner -/

namespace Lexeme

theorem isSpace_eq : Span.isSpace = blanks.contains := by
  funext c
  rw [Bool.eq_iff_iff]
  simp [Span.isSpace, blanks, or_assoc, or_comm (a := c = '\x0b')]

theorem isNameStart_eq : Text.isNameStart = isLetter := by
  funext c
  have hupper : c.isUpper = ('A' ≤ c && c ≤ 'Z') := Bool.decide_and _ _
  rw [isLetter, ← hupper]
  rfl

theorem isNameChar_eq : Text.isNameChar = isLetterOrDigit := by
  funext c
  rw [isLetterOrDigit, ← isNameStart_eq]
  exact Bool.or_right_comm c.isAlpha c.isDigit (c == '_')

theorem isSome_punctuation? : (fun c => (Span.punctuation? c).isSome) = singles.contains := by
  funext c
  have hsingles : singles = ShiftReduce.punctuation.map Prod.fst := rfl
  rw [Span.punctuation?, Option.isSome_map, List.isSome_find?, ← List.any_beq', hsingles,
    List.any_map]
  rfl

theorem language_blank : blank.language = repeated (oneOf Span.isSpace) := by
  rw [isSpace_eq, language]

theorem language_name :
    name.language = oneOf Text.isNameStart * (oneOf Text.isNameChar)∗ := by
  rw [isNameStart_eq, isNameChar_eq, language]

theorem language_punctuation :
    punctuation.language = oneOf fun c => (Span.punctuation? c).isSome := by
  rw [isSome_punctuation?, language]

end Lexeme

/-! ## Their words -/

variable {p : Char → Bool} {q : Char} {w : List Char}

@[simp]
theorem mem_oneOf : w ∈ oneOf p ↔ ∃ c, p c = true ∧ w = [c] := Iff.rfl

@[simp]
theorem mem_oneOf_char : w ∈ oneOf (· == q) ↔ w = [q] := by
  simp

@[simp]
theorem mem_oneOf_star : w ∈ (oneOf p)∗ ↔ ∀ c ∈ w, p c = true := by
  rw [Language.mem_kstar]
  constructor
  · rintro ⟨ws, rfl, hws⟩ c hc
    obtain ⟨v, hv, hcv⟩ := List.mem_flatten.mp hc
    obtain ⟨d, hd, rfl⟩ := hws v hv
    rw [List.mem_singleton.mp hcv]
    exact hd
  · intro h
    refine ⟨w.map fun c => [c], ?_, ?_⟩
    · rw [← List.flatMap_def, List.flatMap_singleton']
    intro v hv
    obtain ⟨c, hc, rfl⟩ := List.mem_map.mp hv
    exact ⟨c, h c hc, rfl⟩

theorem mem_repeated_oneOf : w ∈ repeated (oneOf p) ↔ w ≠ [] ∧ ∀ c ∈ w, p c = true := by
  unfold repeated
  rw [Language.mem_mul]
  constructor
  · rintro ⟨a, ⟨c, hc, rfl⟩, b, hb, rfl⟩
    rw [mem_oneOf_star] at hb
    exact ⟨by simp, by simpa [hc] using hb⟩
  · rintro ⟨hne, hall⟩
    obtain ⟨c, cs, rfl⟩ := List.exists_cons_of_ne_nil hne
    obtain ⟨hc, hcs⟩ := List.forall_mem_cons.mp hall
    exact ⟨[c], ⟨c, hc, rfl⟩, cs, mem_oneOf_star.mpr hcs, rfl⟩

theorem mem_oneOf_mul_star {r : Char → Bool} :
    w ∈ oneOf p * (oneOf r)∗ ↔ ∃ c cs, w = c :: cs ∧ p c = true ∧ ∀ d ∈ cs, r d = true := by
  rw [Language.mem_mul]
  constructor
  · rintro ⟨a, ⟨c, hc, rfl⟩, b, hb, rfl⟩
    exact ⟨c, b, rfl, hc, mem_oneOf_star.mp hb⟩
  · rintro ⟨c, cs, rfl, hc, hcs⟩
    exact ⟨[c], ⟨c, hc, rfl⟩, cs, mem_oneOf_star.mpr hcs, rfl⟩

theorem mem_name : w ∈ Lexeme.name.language ↔ Text.isName w = true := by
  rw [Lexeme.language_name, mem_oneOf_mul_star]
  cases w <;> simp [Text.isName]

@[simp]
theorem mem_optional {l : Language Char} : w ∈ 1 + l ↔ w = [] ∨ w ∈ l := by
  rw [Language.mem_add, Language.mem_one]

theorem mem_digits : w ∈ digits ↔ w ≠ [] ∧ ∀ c ∈ w, Text.isScanned c = true := mem_repeated_oneOf

/-- A mark and a sign that may be missing, in front of digits. -/
structure IsExponent (mark ds : List Char) : Prop where
  mark : ∃ e s, mark = e :: s ∧ (e = 'e' ∨ e = 'E') ∧ (s = [] ∨ s = ['+'] ∨ s = ['-'])
  digits : ds ∈ digits

theorem mem_exponent : w ∈ exponent ↔ ∃ mark ds, w = mark ++ ds ∧ IsExponent mark ds := by
  unfold exponent
  simp only [Language.mem_mul, mem_optional, mem_oneOf]
  constructor
  · rintro ⟨m, ⟨a, ⟨e, he, rfl⟩, s, hs, rfl⟩, ds, hds, rfl⟩
    refine ⟨[e] ++ s, ds, rfl, ⟨e, s, rfl, by simpa using he, ?_⟩, hds⟩
    rcases hs with rfl | ⟨c, hc, rfl⟩
    · exact Or.inl rfl
    · simpa using hc
  · rintro ⟨mark, ds, rfl, ⟨e, s, rfl, he, hs⟩, hds⟩
    refine ⟨e :: s, ⟨[e], ⟨e, by simpa using he, rfl⟩, s, ?_, rfl⟩, ds, hds, rfl⟩
    rcases hs with rfl | rfl | rfl
    · exact Or.inl rfl
    · exact Or.inr ⟨'+', by decide, rfl⟩
    · exact Or.inr ⟨'-', by decide, rfl⟩

theorem mem_fraction : w ∈ fraction ↔
    (∃ ds ex, w = '.' :: (ds ++ ex) ∧ (∀ c ∈ ds, Text.isScanned c = true) ∧
      (ex = [] ∨ ex ∈ exponent)) ∨ w ∈ exponent := by
  unfold fraction
  simp only [Language.mem_add, Language.mem_mul, mem_oneOf_char, mem_oneOf_star, Language.mem_one]
  refine or_congr ?_ Iff.rfl
  constructor
  · rintro ⟨a, rfl, b, ⟨ds, hds, ex, hex, rfl⟩, rfl⟩
    exact ⟨ds, ex, rfl, hds, hex⟩
  · rintro ⟨ds, ex, rfl, hds, hex⟩
    exact ⟨_, rfl, _, ⟨ds, hds, ex, hex, rfl⟩, rfl⟩

theorem language_real : Lexeme.real.language = digits * fraction := by
  unfold Lexeme.language fraction
  simp only [mul_add, mul_assoc]

theorem mem_quotedBy : w ∈ quotedBy q ↔ ∃ body, w = q :: body ++ [q] ∧ body ∈ (stringItem q)∗ := by
  unfold quotedBy
  simp only [Language.mem_mul, mem_oneOf_char]
  constructor
  · rintro ⟨a, ⟨b, rfl, body, hbody, rfl⟩, c, rfl, rfl⟩
    exact ⟨body, rfl, hbody⟩
  · rintro ⟨body, rfl, hbody⟩
    exact ⟨_, ⟨_, rfl, body, hbody, rfl⟩, _, rfl, rfl⟩

theorem mem_stringItem : w ∈ stringItem q ↔
    (∃ c, c ≠ '\n' ∧ w = ['\\', c]) ∨ ∃ c, (c ≠ q ∧ c ≠ '\\' ∧ c ≠ '\n') ∧ w = [c] := by
  unfold stringItem
  rw [Language.mem_add]
  refine or_congr ?_ (by simp [and_assoc])
  rw [Language.mem_mul]
  constructor
  · rintro ⟨a, ha, b, ⟨c, hc, rfl⟩, rfl⟩
    rw [mem_oneOf_char.mp ha]
    exact ⟨c, by simpa using hc, rfl⟩
  · rintro ⟨c, hc, rfl⟩
    exact ⟨['\\'], mem_oneOf_char.mpr rfl, [c], ⟨c, by simpa using hc, rfl⟩, rfl⟩

theorem Quoted.quote_cases (h : isQuote q = true) : q = '"' ∨ q = '\'' := by
  simpa [isQuote] using h

/-! ## First characters -/

namespace Text

theorem isNameStart_bounds {c : Char} (h : isNameStart c = true) :
    65 ≤ c.toNat ∧ c.toNat ≤ 122 := by
  have hchar : isNameChar c = true := by
    unfold isNameStart at h
    unfold isNameChar Char.isAlphanum
    rw [Bool.or_right_comm, h, Bool.true_or]
  have hbounds := isNameChar_bounds hchar
  refine ⟨Nat.le_of_not_lt fun hlt => ?_, hbounds.2⟩
  rw [isNameStart, Bool.or_eq_true, beq_iff_eq] at h
  rcases h with h | rfl
  · change (c.isUpper || c.isLower) = true at h
    rw [Bool.or_eq_true] at h
    rcases h with h | h
    · have hu : 'A'.val ≤ c.val ∧ c.val ≤ 'Z'.val := of_decide_eq_true h
      rw [UInt32.le_iff_toNat_le] at hu
      change 65 ≤ c.toNat ∧ _ at hu
      omega
    · change (decide ('a'.val ≤ c.val) && decide (c.val ≤ 'z'.val)) = true at h
      rw [Bool.and_eq_true, decide_eq_true_eq, UInt32.le_iff_toNat_le] at h
      change 97 ≤ c.toNat ∧ _ at h
      omega
  · revert hlt
    decide

/-- The zeros of the rows of decimal digits, those of all scripts. -/
def decimalZeros : List Nat := 0x30 :: (digitZeros ++ laterDigitZeros)

theorem zero_beyond_ascii {z : Nat} (hz : z ∈ digitZeros ++ laterDigitZeros) : 0x80 ≤ z := by
  revert z
  decide

theorem isDecimal_iff {c : Char} :
    isDecimal c = true ↔ ∃ z ∈ 0x30 :: digitZeros, z ≤ c.toNat ∧ c.toNat < z + 10 := by
  unfold isDecimal digitValue?
  rw [List.exists_mem_cons_iff]
  by_cases hc : c.toNat < 0x80
  · have hnone : ¬ ∃ z ∈ digitZeros, z ≤ c.toNat ∧ c.toNat < z + 10 := by
      rintro ⟨z, hz, hle, -⟩
      have := zero_beyond_ascii (List.mem_append_left _ hz)
      omega
    rw [or_iff_left hnone]
    simp only [hc, if_true]
    split <;> simp <;> omega
  · have hascii : ¬ (0x30 ≤ c.toNat ∧ c.toNat < 0x30 + 10) := by omega
    rw [or_iff_right hascii]
    simp [hc]

theorem isScanned_iff {c : Char} :
    isScanned c = true ↔ ∃ z ∈ decimalZeros, z ≤ c.toNat ∧ c.toNat < z + 10 := by
  have hrows : ∀ zs : List Nat, (zs.any fun z => z ≤ c.toNat && c.toNat < z + 10) = true ↔
      ∃ z ∈ zs, z ≤ c.toNat ∧ c.toNat < z + 10 := by
    simp
  unfold isScanned decimalZeros
  rw [Bool.or_eq_true, hrows, isDecimal_iff, ← List.cons_append]
  simp only [List.mem_append, or_and_right, exists_or]

theorem isScanned_ascii {c : Char} (h : isScanned c = true) (hc : c.toNat < 128) :
    48 ≤ c.toNat ∧ c.toNat ≤ 57 := by
  obtain ⟨z, hz, hle, hlt⟩ := isScanned_iff.mp h
  rcases List.mem_cons.mp hz with rfl | hz
  · omega
  · have := zero_beyond_ascii hz
    omega

end Text

namespace Lexeme

/-- Whether a lexeme of the class can start with a character. -/
def starts : Lexeme → Char → Bool
  | .blank => Span.isSpace
  | .comment => (· == '#')
  | .newline => (· == '\n')
  | .real => Text.isScanned
  | .integer => Text.isScanned
  | .name => Text.isNameStart
  | .doubleQuoted => (· == '"')
  | .singleQuoted => (· == '\'')
  | .punctuation => fun c => (Span.punctuation? c).isSome

theorem starts_of_mem {k : Lexeme} (h : w ∈ k.language) :
    ∃ c cs, w = c :: cs ∧ k.starts c = true := by
  have hrun : ∀ {p : Char → Bool}, w ∈ repeated (oneOf p) → ∃ c cs, w = c :: cs ∧ p c = true := by
    intro p h
    obtain ⟨hne, hall⟩ := mem_repeated_oneOf.mp h
    obtain ⟨c, cs, rfl⟩ := List.exists_cons_of_ne_nil hne
    exact ⟨c, cs, rfl, hall c (by simp)⟩
  have hquoted : ∀ {q : Char}, w ∈ quotedBy q → ∃ c cs, w = c :: cs ∧ (c == q) = true := by
    intro q h
    obtain ⟨body, rfl, -⟩ := mem_quotedBy.mp h
    exact ⟨q, body ++ [q], rfl, by simp⟩
  cases k with
  | blank =>
    rw [language_blank] at h
    exact hrun h
  | comment =>
    obtain ⟨c, cs, rfl, hc, -⟩ := mem_oneOf_mul_star.mp h
    exact ⟨c, cs, rfl, hc⟩
  | newline =>
    obtain ⟨c, hc, rfl⟩ := h
    exact ⟨c, [], rfl, hc⟩
  | real =>
    rw [language_real] at h
    obtain ⟨ds, hds, t, -, rfl⟩ := Language.mem_mul.mp h
    obtain ⟨hne, hall⟩ := mem_digits.mp hds
    obtain ⟨c, cs, rfl⟩ := List.exists_cons_of_ne_nil hne
    exact ⟨c, cs ++ t, rfl, hall c (by simp)⟩
  | integer => exact hrun h
  | name =>
    rw [language_name] at h
    obtain ⟨c, cs, rfl, hc, -⟩ := mem_oneOf_mul_star.mp h
    exact ⟨c, cs, rfl, hc⟩
  | doubleQuoted => exact hquoted h
  | singleQuoted => exact hquoted h
  | punctuation =>
    rw [language_punctuation] at h
    obtain ⟨c, hc, rfl⟩ := h
    exact ⟨c, [], rfl, hc⟩

/-- The class that a first character tells, an integer for any number. -/
def ofStart? (c : Char) : Option Lexeme :=
  if Span.isSpace c then some .blank
  else if c = '#' then some .comment
  else if c = '\n' then some .newline
  else if Text.isScanned c then some .integer
  else if Text.isNameStart c then some .name
  else if c = '"' then some .doubleQuoted
  else if c = '\'' then some .singleQuoted
  else if (Span.punctuation? c).isSome then some .punctuation
  else none

/-- A class, or the integers in place of the real numbers. -/
def leading : Lexeme → Lexeme
  | .real => .integer
  | k => k

theorem isSpace_cases {c : Char} (h : Span.isSpace c = true) :
    c = ' ' ∨ c = '\t' ∨ c = '\r' ∨ c = '\x0b' ∨ c = '\x0c' := by
  simpa [Span.isSpace, or_assoc] using h

theorem ofStart?_scanned {c : Char} (h : Text.isScanned c = true) : ofStart? c = some .integer := by
  have hspace : ¬ Span.isSpace c = true := by
    intro hs
    rcases isSpace_cases hs with rfl | rfl | rfl | rfl | rfl <;> exact absurd h (by decide)
  have hhash : c ≠ '#' := ne_of_apply_ne Text.isScanned (by rw [h]; decide)
  have hfeed : c ≠ '\n' := ne_of_apply_ne Text.isScanned (by rw [h]; decide)
  unfold ofStart?
  rw [if_neg hspace, if_neg hhash, if_neg hfeed, if_pos h]

theorem ofStart?_nameStart {c : Char} (h : Text.isNameStart c = true) :
    ofStart? c = some .name := by
  obtain ⟨hlow, hhigh⟩ := Text.isNameStart_bounds h
  have hspace : ¬ Span.isSpace c = true := by
    intro hs
    rcases isSpace_cases hs with rfl | rfl | rfl | rfl | rfl <;> exact absurd hlow (by decide)
  have hhash : c ≠ '#' := ne_of_apply_ne Text.isNameStart (by rw [h]; decide)
  have hfeed : c ≠ '\n' := ne_of_apply_ne Text.isNameStart (by rw [h]; decide)
  have hdigit : ¬ Text.isScanned c = true := by
    intro hs
    have := Text.isScanned_ascii hs (by omega)
    omega
  unfold ofStart?
  rw [if_neg hspace, if_neg hhash, if_neg hfeed, if_neg hdigit, if_pos h]

theorem mem_of_punctuation? {c : Char} {kind : String} (h : Span.punctuation? c = some kind) :
    (c, kind) ∈ ShiftReduce.punctuation := by
  obtain ⟨e, he, rfl⟩ := Option.map_eq_some_iff.mp h
  have hc := List.find?_some he
  rw [beq_iff_eq] at hc
  subst hc
  exact List.mem_of_find?_eq_some he

theorem ofStart?_punctuation {c : Char} (h : (Span.punctuation? c).isSome = true) :
    ofStart? c = some .punctuation := by
  obtain ⟨kind, hk⟩ := Option.isSome_iff_exists.mp h
  have hall : ∀ e ∈ ShiftReduce.punctuation, ofStart? e.1 = some .punctuation := by decide
  exact hall _ (mem_of_punctuation? hk)

theorem terminal?_mem {k : Lexeme} {kind : String} (h : k.terminal? w = some kind) :
    kind ∈ terminals ∧ kind ≠ "eof" := by
  have hpunctuation : ∀ e ∈ ShiftReduce.punctuation, e.2 ∈ terminals ∧ e.2 ≠ "eof" := by decide
  cases k with
  | blank => cases h
  | comment => cases h
  | name =>
    unfold terminal? at h
    obtain rfl := Option.some.inj h
    split
    · decide
    · split <;> decide
  | punctuation =>
    obtain ⟨c, -, hc⟩ := Option.bind_eq_some_iff.mp h
    exact hpunctuation _ (mem_of_punctuation? hc)
  | _ =>
    obtain rfl := Option.some.inj h
    decide

theorem ofStart?_of_starts {k : Lexeme} {c : Char} (h : k.starts c = true) :
    ofStart? c = some k.leading := by
  cases k with
  | blank =>
    unfold ofStart?
    exact if_pos h
  | comment =>
    obtain rfl := beq_iff_eq.mp h
    decide
  | newline =>
    obtain rfl := beq_iff_eq.mp h
    decide
  | real => exact ofStart?_scanned h
  | integer => exact ofStart?_scanned h
  | name => exact ofStart?_nameStart h
  | doubleQuoted =>
    obtain rfl := beq_iff_eq.mp h
    decide
  | singleQuoted =>
    obtain rfl := beq_iff_eq.mp h
    decide
  | punctuation => exact ofStart?_punctuation h

theorem ofStart?_of_mem {k : Lexeme} {c : Char} {cs : List Char} (h : c :: cs ∈ k.language) :
    ofStart? c = some k.leading := by
  obtain ⟨d, ds, hd, hs⟩ := starts_of_mem h
  obtain ⟨rfl, rfl⟩ := List.cons.inj hd
  exact ofStart?_of_starts hs

/-! ## No word is in two classes -/

theorem not_scanned_of_fraction {t : List Char} (h : t ∈ fraction) :
    ∃ c cs, t = c :: cs ∧ Text.isScanned c = false := by
  rcases mem_fraction.mp h with ⟨ds, ex, rfl, -, -⟩ | hex
  · exact ⟨'.', ds ++ ex, rfl, by decide⟩
  · obtain ⟨mark, ds, rfl, ⟨e, s, rfl, he, -⟩, -⟩ := mem_exponent.mp hex
    refine ⟨e, s ++ ds, rfl, ?_⟩
    rcases he with rfl | rfl <;> decide

theorem not_real_of_integer (h : w ∈ integer.language) : w ∉ real.language := by
  intro hreal
  rw [language_real] at hreal
  obtain ⟨ds, -, t, ht, rfl⟩ := Language.mem_mul.mp hreal
  obtain ⟨c, cs, rfl, hc⟩ := not_scanned_of_fraction ht
  have hall := (mem_digits.mp h).2 c (by simp)
  rw [hc] at hall
  simp at hall

theorem eq_of_mem {k l : Lexeme} (hk : w ∈ k.language) (hl : w ∈ l.language) : k = l := by
  obtain ⟨c, cs, rfl, -⟩ := starts_of_mem hk
  have hsame : k.leading = l.leading :=
    Option.some.inj ((ofStart?_of_mem hk).symm.trans (ofStart?_of_mem hl))
  cases k <;> cases l <;> first | rfl | cases hsame
  · exact absurd hk (not_real_of_integer hl)
  · exact absurd hl (not_real_of_integer hk)

/-! ## The characters of a lexeme -/

/-- The names and the numbers, which end only where another character comes. -/
def isWord : Lexeme → Bool
  | .real | .integer | .name => true
  | _ => false

def isWordChar (c : Char) : Bool :=
  Text.isNameChar c || Text.isScanned c || c == '.' || c == '+' || c == '-'

theorem isWordChar_of_scanned {c : Char} (h : Text.isScanned c = true) : isWordChar c = true := by
  simp [isWordChar, h]

/-- The characters of a real number that are no digits. -/
def realMarks : List Char := ['.', 'e', 'E', '+', '-']

theorem chars_exponent (h : w ∈ exponent) : ∀ c ∈ w, Text.isScanned c = true ∨ c ∈ realMarks := by
  obtain ⟨mark, ds, rfl, ⟨e, s, rfl, he, hs⟩, hds⟩ := mem_exponent.mp h
  intro c hc
  simp only [List.cons_append, List.mem_cons, List.mem_append] at hc
  rcases hc with rfl | hc | hc
  · right
    rcases he with rfl | rfl <;> decide
  · right
    rcases hs with rfl | rfl | rfl
    · simp at hc
    · rw [List.mem_singleton.mp hc]
      decide
    · rw [List.mem_singleton.mp hc]
      decide
  · exact Or.inl ((mem_digits.mp hds).2 c hc)

theorem chars_fraction (h : w ∈ fraction) : ∀ c ∈ w, Text.isScanned c = true ∨ c ∈ realMarks := by
  rcases mem_fraction.mp h with ⟨ds, ex, rfl, hds, hex⟩ | hex
  · intro c hc
    simp only [List.mem_cons, List.mem_append] at hc
    rcases hc with rfl | hc | hc
    · right
      decide
    · exact Or.inl (hds c hc)
    · rcases hex with rfl | hex
      · simp at hc
      · exact chars_exponent hex c hc
  · exact chars_exponent hex

theorem chars_real (h : w ∈ real.language) :
    ∀ c ∈ w, Text.isScanned c = true ∨ c ∈ realMarks := by
  rw [language_real] at h
  obtain ⟨ds, hds, t, ht, rfl⟩ := Language.mem_mul.mp h
  intro c hc
  rcases List.mem_append.mp hc with hc | hc
  · exact Or.inl ((mem_digits.mp hds).2 c hc)
  · exact chars_fraction ht c hc

theorem isWordChar_of_mem {k : Lexeme} (hk : k.isWord = true) (h : w ∈ k.language) :
    ∀ c ∈ w, isWordChar c = true := by
  cases k with
  | real =>
    intro c hc
    rcases chars_real h c hc with hscan | hmark
    · exact isWordChar_of_scanned hscan
    · have hmarks : realMarks.all isWordChar = true := by decide
      exact List.all_eq_true.mp hmarks c hmark
  | integer => exact fun c hc => isWordChar_of_scanned ((mem_digits.mp h).2 c hc)
  | name =>
    intro d hd
    simp [isWordChar, Text.isNameChar_of_isName (mem_name.mp h) d hd]
  | _ => cases hk

theorem newline_not_mem_quotedBy (hq : q ≠ '\n') (h : w ∈ quotedBy q) : '\n' ∉ w := by
  obtain ⟨body, rfl, hbody⟩ := mem_quotedBy.mp h
  obtain ⟨items, rfl, hitems⟩ := Language.mem_kstar.mp hbody
  intro hmem
  simp only [List.cons_append, List.mem_cons, List.mem_append, List.mem_flatten,
    List.not_mem_nil, or_false] at hmem
  rcases hmem with hmem | ⟨item, hitem, hmem⟩ | hmem
  · exact hq hmem.symm
  · rcases mem_stringItem.mp (hitems item hitem) with ⟨d, hd, rfl⟩ | ⟨d, ⟨-, -, hd⟩, rfl⟩
    · simp [hd.symm] at hmem
    · simp [hd.symm] at hmem
  · exact hq hmem.symm

theorem newline_not_mem {k : Lexeme} (hk : k ≠ .newline) (h : w ∈ k.language) : '\n' ∉ w := by
  have hword : k.isWord = true → '\n' ∉ w := by
    intro hk hmem
    exact absurd (isWordChar_of_mem hk h _ hmem) (by decide)
  cases k with
  | blank => exact fun hmem => absurd ((mem_repeated_oneOf.mp h).2 _ hmem) (by decide)
  | comment =>
    obtain ⟨c, cs, rfl, hc, hcs⟩ := mem_oneOf_mul_star.mp h
    obtain rfl := beq_iff_eq.mp hc
    intro hmem
    rcases List.mem_cons.mp hmem with hmem | hmem
    · exact absurd hmem (by decide)
    · exact absurd (hcs _ hmem) (by decide)
  | newline => exact absurd rfl hk
  | real => exact hword rfl
  | integer => exact hword rfl
  | name => exact hword rfl
  | doubleQuoted => exact newline_not_mem_quotedBy (by decide) h
  | singleQuoted => exact newline_not_mem_quotedBy (by decide) h
  | punctuation =>
    obtain ⟨c, hc, rfl⟩ := h
    intro hmem
    obtain rfl := List.mem_singleton.mp hmem
    exact absurd hc (by decide)

theorem eq_of_terminal? {j k : Lexeme} {kind : String} (hj : j.terminal? [] = some kind)
    (hname : j ≠ .name) (hk : k.terminal? w = some kind) : k = j := by
  have hfixed : kind ∈ ["nl", "float", "integer", "string_d", "string_s"] := by
    cases j with
    | blank | comment | punctuation => cases hj
    | name => exact absurd rfl hname
    | _ => cases hj; decide
  have hpunctuation : ∀ e ∈ ShiftReduce.punctuation,
      e.2 ∉ ["nl", "float", "integer", "string_d", "string_s"] := by decide
  cases k with
  | name =>
    obtain rfl := Option.some.inj hk
    split at hfixed
    · exact absurd hfixed (by decide)
    · split at hfixed <;> exact absurd hfixed (by decide)
  | punctuation =>
    obtain ⟨c, -, hc⟩ := Option.bind_eq_some_iff.mp hk
    exact absurd hfixed (hpunctuation _ (mem_of_punctuation? hc))
  | blank | comment => cases hk
  | _ =>
    cases hk
    cases j <;> first | rfl | exact absurd rfl hname | exact absurd hj (by decide)

end Lexeme

end ShiftReduce
