import Mathlib
import ShaderLang.Proofs.Reading
import ShaderLang.Proofs.Slice

/-!
# Lexemes

The texts that are tokens: reserved words, marks, names, and literals in the forms that they may
have. A text is scanned as one token exactly when it is a lexeme (`spells_iff_lexeme`), and of all
lexemes that a text begins with the longest one is taken (`Lexeme.length_le`).
-/

namespace ShaderLang

/-! ## Spellings -/

namespace Keyword

theorem ofText?_text (word : Keyword) : ofText? word.text = some word := by
  cases word <;> rfl

theorem exists_toList_text (word : Keyword) :
    ∃ c rest, word.text.toList = c :: rest ∧ Token.Scan.startsName c = true ∧
      ∀ d ∈ rest, Token.Scan.continuesName d = true := by
  cases word <;> exact ⟨_, _, rfl, rfl, List.all_eq_true.mp rfl⟩

end Keyword

namespace Mark

theorem toList_text_of_two? {c d : Char} {m : Mark} (h : two? c d = some m) :
    m.text.toList = [c, d] := by
  unfold two? at h
  split at h <;> cases h <;> rfl

theorem toList_text_of_one? {c : Char} {m : Mark} (h : one? c = some m) : m.text.toList = [c] := by
  unfold one? at h
  split at h <;> cases h <;> rfl

end Mark

namespace Token

/-- The characters that are white space. -/
def blanks : List Char :=
  [' ', '\t', '\n', '\r', '\x0c']

/-- A row of digits. -/
def Digits (text : List Char) : Prop :=
  ∀ d ∈ text, d.isDigit = true

/-- An exponent of ten. -/
inductive Exponent : List Char → Prop
  | unsigned {mark : Char} {digits : List Char} (hmark : mark ∈ ['e', 'E'])
      (hdigits : Digits digits) (hne : digits ≠ []) : Exponent (mark :: digits)
  | signed {mark sign : Char} {digits : List Char} (hmark : mark ∈ ['e', 'E'])
      (hsign : sign ∈ ['+', '-']) (hdigits : Digits digits) (hne : digits ≠ []) :
      Exponent (mark :: sign :: digits)

/-- A number that is written with a point or an exponent. Digits have to stand in front of the
point or behind it. -/
inductive Fractional : List Char → Prop
  | point {whole fraction exponent : List Char} (hwhole : Digits whole) (hne : whole ≠ [])
      (hfraction : Digits fraction) (hexponent : exponent = [] ∨ Exponent exponent) :
      Fractional (whole ++ '.' :: (fraction ++ exponent))
  | leadingPoint {fraction exponent : List Char} (hfraction : Digits fraction) (hne : fraction ≠ [])
      (hexponent : exponent = [] ∨ Exponent exponent) :
      Fractional ('.' :: (fraction ++ exponent))
  | scaled {whole exponent : List Char} (hwhole : Digits whole) (hne : whole ≠ [])
      (hexponent : Exponent exponent) : Fractional (whole ++ exponent)

/-- The texts that are tokens of a kind. -/
inductive Lexeme : List Char → Kind → Prop
  | keyword (word : Keyword) : Lexeme word.text.toList (.keyword word)
  | mark (m : Mark) : Lexeme m.text.toList (.mark m)
  | name {c : Char} {rest : List Char} (hc : Scan.startsName c = true)
      (hrest : ∀ d ∈ rest, Scan.continuesName d = true)
      (hword : Keyword.ofText? (String.ofList (c :: rest)) = none) :
      Lexeme (c :: rest) (.name (String.ofList (c :: rest)))
  | int {digits : List Char} (hdigits : Digits digits) (hne : digits ≠ [])
      (hlt : Decimal.natOfDigits digits < Scan.intLimit) :
      Lexeme digits (.int (.ofNat (Decimal.natOfDigits digits)))
  | float {number suffix : List Char} {literal : Decimal.Literal} (hnumber : Fractional number)
      (hsuffix : suffix ∈ [[], ['f'], ['F']])
      (hvalue : Decimal.Literal.ofText? number = some literal) :
      Lexeme (number ++ suffix) (.float literal.value)

namespace Scan

variable {c : Char} {a b text rest : List Char} {what : Piece} {kind : Kind} {n : Nat}

/-! ## Characters -/

theorem isBlank_iff : isBlank c = true ↔ c ∈ blanks := by
  simp [isBlank, blanks, or_assoc]

theorem forall_mem_blanks {p : Char → Prop} :
    (∀ d ∈ blanks, p d) ↔ p ' ' ∧ p '\t' ∧ p '\n' ∧ p '\r' ∧ p '\x0c' := by
  simp [blanks]

theorem isDigit_of_mem_blanks : ∀ d ∈ blanks, d.isDigit = false :=
  forall_mem_blanks.mpr (by decide)

theorem continuesName_of_mem_blanks : ∀ d ∈ blanks, continuesName d = false :=
  forall_mem_blanks.mpr (by decide)

theorem isDigit_of_startsName (h : startsName c = true) : c.isDigit = false := by
  by_contra hdigit
  simp only [startsName, Char.isAlpha, Char.isUpper, Char.isLower, Bool.or_eq_true, beq_iff_eq,
    Bool.and_eq_true, decide_eq_true_eq, Char.isDigit, Bool.not_eq_false, UInt32.le_iff_toNat_le,
    ge_iff_le] at h hdigit
  have hnine : '9'.val.toNat = 57 := rfl
  rcases h with (hupper | hlower) | rfl
  · have hA : 'A'.val.toNat = 65 := rfl
    omega
  · have ha : 'a'.val.toNat = 97 := rfl
    omega
  · exact absurd hdigit (by decide)

/-! ## Which piece it is -/

theorem piece_of_isDigit (h : c.isDigit = true) : piece c rest = numberPiece (c :: rest) := by
  have hblank : ¬isBlank c = true := fun hc => by
    simp [isDigit_of_mem_blanks c (isBlank_iff.mp hc)] at h
  have hslash : (c == '/') = false := beq_eq_false_iff_ne.mpr fun hc => by simp [hc] at h
  rw [piece, if_neg hblank, hslash, if_neg (by simp), if_neg (by simp), if_pos h]

theorem piece_of_startsName (h : startsName c = true) : piece c rest = wordPiece (c :: rest) := by
  have hblank : ¬isBlank c = true := fun hc => by
    have := continuesName_of_mem_blanks c (isBlank_iff.mp hc)
    simp [continuesName_of_startsName h] at this
  have hslash : (c == '/') = false :=
    beq_eq_false_iff_ne.mpr fun hc => absurd h (by rw [hc]; decide)
  have hpoint : (c == '.') = false :=
    beq_eq_false_iff_ne.mpr fun hc => absurd h (by rw [hc]; decide)
  rw [piece, if_neg hblank, hslash, if_neg (by simp), if_neg (by simp),
    if_neg (by simp [isDigit_of_startsName h]), hpoint, if_neg (by simp), if_pos h]

theorem piece_of_point {d : Char} (h : d.isDigit = true) :
    piece '.' (d :: rest) = fractionPiece ('.' :: d :: rest) := by
  simp [piece, isBlank, h]

/-- A token is a number, a word or a mark. -/
theorem piece_token (h : piece c rest = (.token kind, n)) :
    (c.isDigit = true ∧ numberPiece (c :: rest) = (.token kind, n)) ∨
    (∃ d tail, c = '.' ∧ rest = d :: tail ∧ d.isDigit = true ∧
      fractionPiece (c :: rest) = (.token kind, n)) ∨
    (startsName c = true ∧ wordPiece (c :: rest) = (.token kind, n)) ∨
    markPiece c rest = (.token kind, n) := by
  unfold piece at h
  split at h
  · cases h
  · split at h
    · cases h
    · split at h
      · split at h <;> cases h
      · split at h
        · next hdigit => exact .inl ⟨hdigit, h⟩
        · split at h
          · next hpoint =>
            obtain ⟨hc, hhead⟩ := Bool.and_eq_true_iff.mp hpoint
            cases rest with
            | nil => cases hhead
            | cons d tail => exact .inr (.inl ⟨d, tail, eq_of_beq hc, rfl, hhead, h⟩)
          · split at h
            · next hword => exact .inr (.inr (.inl ⟨hword, h⟩))
            · exact .inr (.inr (.inr h))

/-- A text that is one token of a kind, and no more. -/
def Spells (text : List Char) (kind : Kind) : Prop :=
  ∃ c rest, text = c :: rest ∧ piece c rest = (.token kind, 1 + rest.length)

/-! ## Tokens are lexemes -/

theorem take_takeWhile (p : Char → Bool) (text : List Char) :
    text.take (text.takeWhile p).length = text.takeWhile p :=
  (List.prefix_iff_eq_take.mp (List.takeWhile_prefix p)).symm

theorem digits_take (text : List Char) : Digits (text.take (digitCount text)) := by
  rw [digitCount, take_takeWhile]
  exact fun _ hd => List.mem_takeWhile_imp hd

theorem digitCount_le (text : List Char) : digitCount text ≤ text.length :=
  (List.takeWhile_prefix _).length_le

theorem take_ne_nil (hn : n ≤ text.length) (hzero : n ≠ 0) : text.take n ≠ [] := by
  intro h
  have hlength := congrArg List.length h
  rw [List.length_take_of_le hn] at hlength
  exact hzero hlength

theorem exponent_take (h : exponentLength text ≠ 0) :
    Exponent (text.take (exponentLength text)) := by
  match text with
  | [] => exact absurd rfl h
  | [mark] => simp [exponentLength] at h
  | mark :: sign :: digits =>
    simp only [exponentLength] at h ⊢
    split at h
    · next hmark =>
      have hmark' : mark ∈ ['e', 'E'] := by simpa using hmark
      split at h
      · next hsign =>
        have hsign' : sign ∈ ['+', '-'] := by simpa using hsign
        split at h
        · exact absurd rfl h
        · next hcount =>
          rw [if_pos hmark, if_pos hsign, if_neg hcount, Nat.add_comm 2]
          exact .signed hmark' hsign' (digits_take digits)
            (take_ne_nil (digitCount_le digits) hcount)
      · next hsign =>
        split at h
        · exact absurd rfl h
        · next hcount =>
          rw [if_pos hmark, if_neg hsign, if_neg hcount, Nat.add_comm 1]
          exact .unsigned hmark' (digits_take (sign :: digits))
            (take_ne_nil (digitCount_le (sign :: digits)) hcount)
    · exact absurd rfl h

theorem nil_or_exponent_take (text : List Char) :
    text.take (exponentLength text) = [] ∨ Exponent (text.take (exponentLength text)) := by
  by_cases h : exponentLength text = 0
  · exact .inl (by rw [h, List.take_zero])
  · exact .inr (exponent_take h)

theorem exponentLength_le (text : List Char) : exponentLength text ≤ text.length := by
  match text with
  | [] => exact Nat.le_refl 0
  | [mark] => simp [exponentLength]
  | mark :: sign :: digits =>
    have hdigits := digitCount_le digits
    have hrest := digitCount_le (sign :: digits)
    simp only [exponentLength, List.length_cons] at hrest ⊢
    split
    · split
      · split <;> omega
      · split <;> omega
    · omega

theorem suffixLength_le (text : List Char) : suffixLength text ≤ text.length := by
  cases text with
  | nil => exact Nat.le_refl 0
  | cons c rest =>
    rw [suffixLength]
    split <;> simp

theorem suffix_of_suffixLength (h : suffixLength text = text.length) :
    text ∈ [[], ['f'], ['F']] := by
  cases text with
  | nil => exact List.mem_cons_self
  | cons c rest =>
    rw [suffixLength] at h
    split at h
    · next hc =>
      obtain rfl : rest = [] := List.eq_nil_of_length_eq_zero (Nat.succ.inj h).symm
      simpa using hc
    · cases h

theorem lexeme_of_floatPiece {length : Nat}
    (h : floatPiece text length = (.token kind, text.length))
    (hnumber : Fractional (text.take length)) : Lexeme text kind := by
  have hle := le_of_floatPiece h
  unfold floatPiece at h
  split at h
  · next literal hliteral =>
    obtain ⟨hkind, hlength⟩ := Prod.mk.inj h
    cases hkind
    have hsuffix : text.drop length ∈ [[], ['f'], ['F']] :=
      suffix_of_suffixLength (by rw [List.length_drop]; omega)
    have hlexeme := Lexeme.float hnumber hsuffix hliteral
    rwa [List.take_append_drop] at hlexeme
  · cases h

theorem lexeme_of_numberPiece (hzero : digitCount text ≠ 0)
    (h : numberPiece text = (.token kind, text.length)) : Lexeme text kind := by
  have hwhole := digits_take text
  have hne := take_ne_nil (digitCount_le text) hzero
  by_cases hpoint : (text.drop (digitCount text)).head? = some '.'
  · obtain ⟨behind, hbehind⟩ := List.head?_eq_some_iff.mp hpoint
    rw [numberPiece_of_point hbehind] at h
    refine lexeme_of_floatPiece h ?_
    rw [Nat.add_assoc, Nat.add_assoc, List.take_add, hbehind, Nat.add_comm 1, List.take_succ_cons,
      List.take_add]
    exact .point hwhole hne (digits_take behind) (nil_or_exponent_take _)
  · rw [numberPiece_of_not_point hpoint] at h
    split at h
    · split at h
      · next hlt =>
        obtain ⟨hkind, hlength⟩ := Prod.mk.inj h
        cases hkind
        rw [hlength, List.take_length] at hlt hwhole hne ⊢
        exact .int hwhole hne hlt
      · cases h
    · next hexponent =>
      refine lexeme_of_floatPiece h ?_
      rw [List.take_add]
      exact .scaled hwhole hne (exponent_take hexponent)

theorem lexeme_of_fractionPiece {d : Char} (hd : d.isDigit = true)
    (h : fractionPiece ('.' :: d :: rest) = (.token kind, ('.' :: d :: rest).length)) :
    Lexeme ('.' :: d :: rest) kind := by
  have hzero : digitCount (d :: rest) ≠ 0 := by simp [digitCount, hd]
  refine lexeme_of_floatPiece h ?_
  simp only [Nat.add_comm 1, List.drop_succ_cons]
  rw [Nat.add_right_comm, List.take_succ_cons, List.take_add]
  exact .leadingPoint (digits_take _) (take_ne_nil (digitCount_le _) hzero) (nil_or_exponent_take _)

theorem lexeme_of_wordPiece (hc : startsName c = true)
    (h : wordPiece (c :: rest) = (.token kind, (c :: rest).length)) : Lexeme (c :: rest) kind := by
  have hlength : ((c :: rest).takeWhile continuesName).length = (c :: rest).length :=
    congrArg Prod.snd h
  have hall : (c :: rest).takeWhile continuesName = c :: rest :=
    (List.takeWhile_prefix continuesName).eq_of_length hlength
  have hrest : ∀ d ∈ rest, continuesName d = true := fun d hd =>
    List.takeWhile_eq_self_iff.mp hall d (List.mem_cons_of_mem c hd)
  rw [wordPiece, hall] at h
  split at h
  · next word hword =>
    cases h
    have htext : (word.text == String.ofList (c :: rest)) = true :=
      List.find?_some (p := fun k : Keyword => k.text == String.ofList (c :: rest)) hword
    have hlexeme := Lexeme.keyword word
    rwa [eq_of_beq htext, String.toList_ofList] at hlexeme
  · next hword =>
    cases h
    exact .name hc hrest hword

theorem lexeme_of_markPiece (h : markPiece c rest = (.token kind, (c :: rest).length)) :
    Lexeme (c :: rest) kind := by
  unfold markPiece at h
  split at h
  · next m hm =>
    obtain ⟨d, hhead, htwo⟩ := Option.bind_eq_some_iff.mp hm
    obtain ⟨tail, rfl⟩ := List.head?_eq_some_iff.mp hhead
    obtain ⟨hkind, hlength⟩ := Prod.mk.inj h
    cases hkind
    obtain rfl : tail = [] := List.eq_nil_of_length_eq_zero (by simpa using hlength)
    rw [← Mark.toList_text_of_two? htwo]
    exact .mark m
  · split at h
    · next m hm =>
      obtain ⟨hkind, hlength⟩ := Prod.mk.inj h
      cases hkind
      obtain rfl : rest = [] := List.eq_nil_of_length_eq_zero (by simpa using hlength)
      rw [← Mark.toList_text_of_one? hm]
      exact .mark m
    · cases h

theorem Spells.lexeme (h : Spells text kind) : Lexeme text kind := by
  obtain ⟨c, rest, rfl, hpiece⟩ := h
  rw [Nat.add_comm] at hpiece
  rcases piece_token hpiece with ⟨hc, h⟩ | ⟨d, tail, rfl, rfl, hd, h⟩ | ⟨hc, h⟩ | h
  · exact lexeme_of_numberPiece (by simp [digitCount, hc]) h
  · exact lexeme_of_fractionPiece hd h
  · exact lexeme_of_wordPiece hc h
  · exact lexeme_of_markPiece h

/-! ## Lengths -/

theorem floatPiece_le {length : Nat} (hlength : length ≤ text.length)
    (h : floatPiece text length = (what, n)) : n ≤ text.length := by
  have hsuffix := suffixLength_le (text.drop length)
  rw [List.length_drop] at hsuffix
  unfold floatPiece at h
  split at h <;> cases h <;> omega

theorem numberPiece_le (h : numberPiece text = (what, n)) : n ≤ text.length := by
  have hwhole := digitCount_le text
  have hlength : (text.drop (digitCount text)).length = text.length - digitCount text :=
    List.length_drop
  unfold numberPiece at h
  dsimp only at h
  split at h
  · next rest hrest =>
    have hfraction := digitCount_le rest
    have hexponent := exponentLength_le (rest.drop (digitCount rest))
    rw [List.length_drop] at hexponent
    rw [hrest, List.length_cons] at hlength
    exact floatPiece_le (by omega) h
  · have hexponent := exponentLength_le (text.drop (digitCount text))
    split at h
    · cases h
      exact hwhole
    · exact floatPiece_le (by omega) h

theorem fractionPiece_le (h : fractionPiece (c :: rest) = (what, n)) : n ≤ 1 + rest.length := by
  have hfraction := digitCount_le rest
  have hexponent := exponentLength_le (rest.drop (digitCount rest))
  rw [List.length_drop] at hexponent
  unfold fractionPiece at h
  simp only [List.drop_succ_cons, List.drop_zero, Nat.add_comm 1] at h
  have hle := floatPiece_le (by rw [List.length_cons]; omega) h
  rw [List.length_cons] at hle
  omega

theorem markPiece_le (h : markPiece c rest = (.token kind, n)) : 1 ≤ n ∧ n ≤ 1 + rest.length := by
  unfold markPiece at h
  split at h
  · next m hm =>
    obtain ⟨d, hhead, -⟩ := Option.bind_eq_some_iff.mp hm
    obtain ⟨tail, rfl⟩ := List.head?_eq_some_iff.mp hhead
    cases h
    simp
    omega
  · split at h
    · cases h
      omega
    · cases h

/-- A token takes up a character at least, and no more than there are. -/
theorem length_of_piece_token (h : piece c rest = (.token kind, n)) :
    1 ≤ n ∧ n ≤ 1 + rest.length := by
  rcases piece_token h with ⟨hc, h⟩ | ⟨d, tail, rfl, rfl, hd, h⟩ | ⟨hc, h⟩ | h
  · have hle := numberPiece_le h
    have hone := digitCount_le_of_numberPiece h
    rw [digitCount, List.takeWhile_cons_of_pos hc, List.length_cons] at hone
    rw [List.length_cons] at hle
    omega
  · have hone := le_of_floatPiece h
    have hle := fractionPiece_le h
    omega
  · have hle := (List.takeWhile_prefix continuesName (l := c :: rest)).length_le
    cases h
    rw [List.takeWhile_cons_of_pos (continuesName_of_startsName hc)] at hle ⊢
    simp only [List.length_cons] at hle ⊢
    omega
  · exact markPiece_le h

theorem length_pieceText (h : piece c rest = (.token kind, n)) :
    (pieceText c rest n).length = n := by
  obtain ⟨hone, hle⟩ := length_of_piece_token h
  rw [pieceText, List.length_cons, List.length_take_of_le (by omega)]
  omega

/-- The characters that a token was scanned from are a lexeme. -/
theorem lexeme_of_piece (h : piece c rest = (.token kind, n)) :
    Lexeme (pieceText c rest n) kind := by
  obtain ⟨hone, hle⟩ := length_of_piece_token h
  obtain ⟨hcut, -, -⟩ := piece_cut (x := []) h (by simp) rfl
  rw [List.append_nil] at hcut
  refine Spells.lexeme ⟨c, rest.take (n - 1), rfl, ?_⟩
  rw [List.length_take_of_le (by omega), hcut]
  congr
  omega

/-! ## Lexemes are tokens -/

theorem takeWhile_append_of_head {p : Char → Bool} (hb : ∀ d ∈ b.head?, p d = false)
    (a : List Char) : (a ++ b).takeWhile p = a.takeWhile p := by
  induction a with
  | nil =>
    cases b with
    | nil => rfl
    | cons d b => exact List.takeWhile_cons_of_neg (by simp [hb d rfl])
  | cons x a ih => rw [List.cons_append, List.takeWhile_cons, List.takeWhile_cons, ih]

theorem digitCount_append_of_digits (ha : Digits a) (hb : ∀ d ∈ b.head?, d.isDigit = false) :
    digitCount (a ++ b) = a.length := by
  rw [digitCount, takeWhile_append_of_head hb, List.takeWhile_eq_self_iff.mpr ha]

section

variable {exponent suffix : List Char} (hsuffix : suffix ∈ [[], ['f'], ['F']])

include hsuffix

theorem suffix_cases : suffix = [] ∨ suffix = ['f'] ∨ suffix = ['F'] := by
  simpa using hsuffix

theorem suffixLength_of_suffix : suffixLength suffix = suffix.length := by
  obtain rfl | rfl | rfl := suffix_cases hsuffix <;> rfl

/-- What comes behind the digits of a number begins with a letter. -/
theorem head?_exponent_append (hexponent : exponent = [] ∨ Exponent exponent) :
    ∀ d ∈ (exponent ++ suffix).head?, d ∈ ['e', 'E', 'f', 'F'] := by
  rcases hexponent with rfl | hexponent
  · obtain rfl | rfl | rfl := suffix_cases hsuffix <;> simp
  · intro d hd
    cases hexponent with
    | unsigned hmark =>
      cases hd
      exact List.mem_append_left ['f', 'F'] hmark
    | signed hmark =>
      cases hd
      exact List.mem_append_left ['f', 'F'] hmark

theorem isDigit_of_mem_head? (hexponent : exponent = [] ∨ Exponent exponent) :
    ∀ d ∈ (exponent ++ suffix).head?, d.isDigit = false := by
  have hletter : ∀ d ∈ ['e', 'E', 'f', 'F'], d.isDigit = false := by simp
  exact fun d hd => hletter d (head?_exponent_append hsuffix hexponent d hd)

theorem exponentLength_append_of_exponent (hexponent : exponent = [] ∨ Exponent exponent) :
    exponentLength (exponent ++ suffix) = exponent.length := by
  have hhead : ∀ d ∈ suffix.head?, d.isDigit = false :=
    isDigit_of_mem_head? hsuffix (.inl rfl)
  rcases hexponent with rfl | hexponent
  · obtain rfl | rfl | rfl := suffix_cases hsuffix <;> rfl
  · cases hexponent with
    | @unsigned mark digits hmark hdigits hne =>
      have hmark' : (mark == 'e' || mark == 'E') = true := by simpa using hmark
      have hcount := digitCount_append_of_digits hdigits hhead
      obtain ⟨d, tail, rfl⟩ := List.exists_cons_of_ne_nil hne
      have hsign : ¬(d == '+' || d == '-') = true := by
        have hd : d.isDigit = true := hdigits d List.mem_cons_self
        intro h
        rcases Bool.or_eq_true_iff.mp h with h | h <;> rw [eq_of_beq h] at hd <;> cases hd
      simp only [List.cons_append, exponentLength] at hcount ⊢
      rw [if_pos hmark', if_neg hsign, hcount, if_neg (by simp), Nat.add_comm]
      rfl
    | @signed mark sign digits hmark hsign hdigits hne =>
      have hmark' : (mark == 'e' || mark == 'E') = true := by simpa using hmark
      have hsign' : (sign == '+' || sign == '-') = true := by simpa using hsign
      simp only [List.cons_append, exponentLength]
      rw [if_pos hmark', if_pos hsign', digitCount_append_of_digits hdigits hhead,
        if_neg (by simpa using hne), Nat.add_comm]
      rfl

theorem floatPiece_append_of_suffix {number : List Char} {literal : Decimal.Literal}
    (hvalue : Decimal.Literal.ofText? number = some literal) :
    floatPiece (number ++ suffix) number.length =
      (.token (.float literal.value), (number ++ suffix).length) := by
  rw [floatPiece, List.take_left, hvalue, List.drop_left, List.length_append]
  dsimp only
  rw [suffixLength_of_suffix hsuffix]

variable {whole fraction : List Char}

theorem digitCount_fraction (hfraction : Digits fraction)
    (hexponent : exponent = [] ∨ Exponent exponent) :
    digitCount (fraction ++ (exponent ++ suffix)) = fraction.length :=
  digitCount_append_of_digits hfraction (isDigit_of_mem_head? hsuffix hexponent)

theorem numberPiece_point (hwhole : Digits whole) (hfraction : Digits fraction)
    (hexponent : exponent = [] ∨ Exponent exponent) :
    numberPiece (whole ++ '.' :: (fraction ++ exponent) ++ suffix) =
      floatPiece (whole ++ '.' :: (fraction ++ exponent) ++ suffix)
        (whole ++ '.' :: (fraction ++ exponent)).length := by
  have hassoc : whole ++ '.' :: (fraction ++ exponent) ++ suffix =
      whole ++ '.' :: (fraction ++ (exponent ++ suffix)) := by simp
  have hcount : digitCount (whole ++ '.' :: (fraction ++ (exponent ++ suffix))) = whole.length :=
    digitCount_append_of_digits hwhole (by simp)
  have hdrop : (whole ++ '.' :: (fraction ++ (exponent ++ suffix))).drop whole.length =
      '.' :: (fraction ++ (exponent ++ suffix)) := List.drop_left
  rw [hassoc, numberPiece_of_point (hcount ▸ hdrop), hcount,
    digitCount_fraction hsuffix hfraction hexponent, List.drop_left,
    exponentLength_append_of_exponent hsuffix hexponent]
  congr 1
  simp only [List.length_append, List.length_cons]
  omega

theorem fractionPiece_eq (hfraction : Digits fraction)
    (hexponent : exponent = [] ∨ Exponent exponent) :
    fractionPiece ('.' :: (fraction ++ exponent) ++ suffix) =
      floatPiece ('.' :: (fraction ++ exponent) ++ suffix)
        ('.' :: (fraction ++ exponent)).length := by
  have hassoc : '.' :: (fraction ++ exponent) ++ suffix =
      '.' :: (fraction ++ (exponent ++ suffix)) := by simp
  rw [hassoc]
  simp only [fractionPiece, Nat.add_comm 1, List.drop_succ_cons, List.drop_zero]
  rw [digitCount_fraction hsuffix hfraction hexponent, List.drop_left,
    exponentLength_append_of_exponent hsuffix hexponent]
  congr 1
  simp only [List.length_append, List.length_cons]
  omega

theorem numberPiece_scaled (hwhole : Digits whole) (hexponent : Exponent exponent) :
    numberPiece (whole ++ exponent ++ suffix) =
      floatPiece (whole ++ exponent ++ suffix) (whole ++ exponent).length := by
  have hhead := head?_exponent_append hsuffix (.inr hexponent)
  have hcount := digitCount_fraction hsuffix hwhole (.inr hexponent)
  have hlength := exponentLength_append_of_exponent hsuffix (.inr hexponent)
  have hdrop : (whole ++ (exponent ++ suffix)).drop whole.length = exponent ++ suffix :=
    List.drop_left
  have hpoint : (exponent ++ suffix).head? ≠ some '.' := fun h => absurd (hhead '.' h) (by decide)
  have hne : exponent.length ≠ 0 := by cases hexponent <;> simp
  rw [List.append_assoc, numberPiece_of_not_point (by rwa [hcount, hdrop]), hcount, hdrop, hlength,
    if_neg hne, List.length_append]

end

/-- A row of digits is a number. -/
theorem numberPiece_digits (hdigits : Digits text) (hlt : Decimal.natOfDigits text < intLimit) :
    numberPiece text = (.token (.int (.ofNat (Decimal.natOfDigits text))), text.length) := by
  have hcount := digitCount_append_of_digits (b := []) hdigits (by simp)
  rw [List.append_nil] at hcount
  rw [numberPiece_of_not_point (by simp [hcount]), hcount, List.drop_length, List.take_length,
    if_pos (by rfl), if_pos hlt]

/-- What consists of the characters of a name is a name, or a reserved word. -/
theorem piece_word (hc : startsName c = true) (hrest : ∀ d ∈ rest, continuesName d = true) :
    piece c rest =
      (.token ((Keyword.ofText? (String.ofList (c :: rest))).elim
        (.name (String.ofList (c :: rest))) .keyword), 1 + rest.length) := by
  have hall : (c :: rest).takeWhile continuesName = c :: rest :=
    List.takeWhile_eq_self_iff.mpr
      (List.forall_mem_cons.mpr ⟨continuesName_of_startsName hc, hrest⟩)
  rw [piece_of_startsName hc, wordPiece, hall, Nat.add_comm 1]
  cases Keyword.ofText? (String.ofList (c :: rest)) <;> rfl

end Scan

open Scan

theorem Lexeme.spells {text : List Char} {kind : Kind} (h : Lexeme text kind) :
    Spells text kind := by
  cases h with
  | keyword word =>
    obtain ⟨c, rest, htext, hc, hrest⟩ := word.exists_toList_text
    refine ⟨c, rest, htext, ?_⟩
    rw [piece_word hc hrest, ← htext, String.ofList_toList, word.ofText?_text]
    rfl
  | mark m => cases m <;> exact ⟨_, _, rfl, rfl⟩
  | @name c rest hc hrest hword =>
    refine ⟨c, rest, rfl, ?_⟩
    rw [piece_word hc hrest, hword]
    rfl
  | int hdigits hne hlt =>
    obtain ⟨d, tail, rfl⟩ := List.exists_cons_of_ne_nil hne
    refine ⟨d, tail, rfl, ?_⟩
    rw [piece_of_isDigit (hdigits d List.mem_cons_self), numberPiece_digits hdigits hlt,
      Nat.add_comm]
    rfl
  | @float number suffix literal hnumber hsuffix hvalue =>
    have hpiece := floatPiece_append_of_suffix hsuffix hvalue
    cases hnumber with
    | point hwhole hne hfraction hexponent =>
      rw [← numberPiece_point hsuffix hwhole hfraction hexponent] at hpiece
      obtain ⟨d, tail, rfl⟩ := List.exists_cons_of_ne_nil hne
      refine ⟨d, _, rfl, ?_⟩
      rw [piece_of_isDigit (hwhole d List.mem_cons_self), Nat.add_comm]
      exact hpiece
    | leadingPoint hfraction hne hexponent =>
      rw [← fractionPiece_eq hsuffix hfraction hexponent] at hpiece
      obtain ⟨d, tail, rfl⟩ := List.exists_cons_of_ne_nil hne
      refine ⟨'.', _, rfl, ?_⟩
      rw [Nat.add_comm]
      exact (piece_of_point (hfraction d List.mem_cons_self)).trans hpiece
    | scaled hwhole hne hexponent =>
      rw [← numberPiece_scaled hsuffix hwhole hexponent] at hpiece
      obtain ⟨d, tail, rfl⟩ := List.exists_cons_of_ne_nil hne
      refine ⟨d, _, rfl, ?_⟩
      rw [piece_of_isDigit (hwhole d List.mem_cons_self), Nat.add_comm]
      exact hpiece

/-- The lexemes are the texts that are scanned as one token. -/
theorem spells_iff_lexeme {text : List Char} {kind : Kind} : Spells text kind ↔ Lexeme text kind :=
  ⟨Spells.lexeme, Lexeme.spells⟩

theorem Lexeme.not_mem_blanks {c : Char} {rest : List Char} {kind : Kind}
    (h : Lexeme (c :: rest) kind) : c ∉ blanks := by
  obtain ⟨d, tail, heq, hpiece⟩ := h.spells
  cases heq
  intro hc
  rw [piece, if_pos (isBlank_iff.mpr hc)] at hpiece
  cases hpiece

theorem Lexeme.byteLength_pos {text : List Char} {kind : Kind} (h : Lexeme text kind) :
    0 < byteLength text := by
  obtain ⟨c, rest, rfl, -⟩ := h.spells
  exact byteLength_cons_pos c rest

/-- No lexeme that a text begins with is longer than the token that is scanned there. -/
theorem Lexeme.length_le {c : Char} {text rest : List Char} {kind kind' : Kind} {n : Nat}
    (h : Lexeme text kind') (hfront : text <+: c :: rest)
    (hpiece : piece c rest = (.token kind, n)) : text.length ≤ n := by
  obtain ⟨d, a, rfl, htext⟩ := h.spells
  obtain ⟨rfl, b, rfl⟩ := List.cons_prefix_cons.mp hfront
  by_contra hlt
  have hcut := piece_of_append hpiece (by rw [List.length_cons] at hlt; omega) (by simp)
  have hn : n = 1 + a.length := congrArg Prod.snd (hcut.symm.trans htext)
  rw [List.length_cons] at hlt
  omega

end Token

end ShaderLang
