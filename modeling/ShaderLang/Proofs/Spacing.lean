import ShaderLang.Proofs.Layout

/-!
# Spacing

How tokens are set apart does not matter. White space behind a token does not change it
(`Scan.piece_before_blank`), and layout is passed over (`Scan.scanFrom_layout`), so the slices of a
text that its tokens were scanned from, joined again by any layout that begins with white space, are
scanned as the same tokens in other places (`Stream.kinds_of_joined`).
-/

namespace ShaderLang.Token

namespace Scan

variable {a b rest text : List Char} {c : Char} {kind : Kind} {n : Nat}

/-! ## Layout is passed over -/

/-- Behind a piece without a token scanning goes on. -/
theorem scanFrom_append_of_blank (h : piece c (a ++ rest) = (.blank, 1 + a.length)) (offset : Nat) :
    scanFrom offset (c :: a ++ rest) = scanFrom (offset + byteLength (c :: a)) rest := by
  rw [List.cons_append, scanFrom_blank offset h, pieceText, Nat.add_sub_cancel_left,
    List.take_left, List.drop_left]

/-- Behind a token scanning goes on. -/
theorem scanFrom_append_of_token (h : piece c (a ++ rest) = (.token kind, 1 + a.length))
    (offset : Nat) :
    scanFrom offset (c :: a ++ rest) =
      .ok ⟨kind, ⟨offset, offset + byteLength (c :: a)⟩⟩ ::
        scanFrom (offset + byteLength (c :: a)) rest := by
  rw [List.cons_append, scanFrom_token offset h, pieceText, Nat.add_sub_cancel_left,
    List.take_left, List.drop_left]

theorem scanFrom_takeWhile_blank (offset : Nat) (text : List Char) :
    scanFrom offset text =
      scanFrom (offset + byteLength (text.takeWhile isBlank)) (text.dropWhile isBlank) := by
  cases text with
  | nil => rfl
  | cons d text =>
    by_cases hd : isBlank d = true
    · have hpiece : piece d (text.takeWhile isBlank ++ text.dropWhile isBlank) =
          (.blank, 1 + (text.takeWhile isBlank).length) := by
        rw [List.takeWhile_append_dropWhile, piece, if_pos hd]
      have hscan := scanFrom_append_of_blank hpiece offset
      rw [List.cons_append, List.takeWhile_append_dropWhile] at hscan
      rw [List.takeWhile_cons_of_pos hd, List.dropWhile_cons_of_pos hd, hscan]
    · rw [List.takeWhile_cons_of_neg hd, List.dropWhile_cons_of_neg hd]
      rfl

/-- White space may be read one character at a time. -/
theorem scanFrom_cons_blank (hc : c ∈ blanks) (offset : Nat) (text : List Char) :
    scanFrom offset (c :: text) = scanFrom (offset + c.utf8Size) text := by
  have hbytes : byteLength (c :: text.takeWhile isBlank) =
      c.utf8Size + byteLength (text.takeWhile isBlank) := rfl
  rw [scanFrom_takeWhile_blank, scanFrom_takeWhile_blank _ text,
    List.takeWhile_cons_of_pos (isBlank_iff.mpr hc),
    List.dropWhile_cons_of_pos (isBlank_iff.mpr hc), hbytes, Nat.add_assoc]

theorem scanFrom_layout {gap : List Char} (hgap : Layout gap) (offset : Nat) (rest : List Char) :
    scanFrom offset (gap ++ rest) = scanFrom (offset + byteLength gap) rest := by
  induction hgap generalizing offset with
  | nil => rfl
  | @blank c gap hc _ ih =>
    rw [List.cons_append, scanFrom_cons_blank hc, ih, Nat.add_assoc]
    rfl
  | @line body gap hbody _ ih =>
    have hall : ∀ d ∈ '/' :: body, (d != '\n') = true := by
      simp only [List.mem_cons, forall_eq_or_imp, bne_iff_ne]
      exact ⟨by decide, fun d hd h => hbody (h ▸ hd)⟩
    have hpiece : piece '/' ('/' :: body ++ '\n' :: (gap ++ rest)) =
        (.blank, 1 + ('/' :: body).length) := by
      rw [piece, if_neg (by decide), if_pos (by simp), takeWhile_append_of_head (by simp),
        List.takeWhile_eq_self_iff.mpr hall]
    have hscan := scanFrom_append_of_blank hpiece offset
    rw [scanFrom_cons_blank (by decide), ih] at hscan
    have hbytes : byteLength ('/' :: '/' :: (body ++ '\n' :: gap)) =
        byteLength ('/' :: '/' :: body) + ('\n'.utf8Size + byteLength gap) :=
      byteLength_append ('/' :: '/' :: body) ('\n' :: gap)
    rw [hbytes, ← Nat.add_assoc, ← Nat.add_assoc]
    simpa using hscan
  | @block body gap hbody _ ih =>
    have hpiece : piece '/' ('*' :: (body ++ ['*', '/']) ++ (gap ++ rest)) =
        (.blank, 1 + ('*' :: (body ++ ['*', '/'])).length) := by
      have hend := commentEnd?_append hbody (gap ++ rest)
      rw [piece, if_neg (by decide), if_neg (by simp), if_pos (by simp)]
      simp [hend]
      omega
    have hscan := scanFrom_append_of_blank hpiece offset
    rw [ih] at hscan
    have hbytes : byteLength ('/' :: '*' :: (body ++ '*' :: '/' :: gap)) =
        byteLength ('/' :: '*' :: (body ++ ['*', '/'])) + byteLength gap := by
      rw [← byteLength_append]
      simp
    rw [hbytes, ← Nat.add_assoc]
    simpa using hscan

/-! ## Tokens in front of white space -/

theorem exponentLength_of_mem_blanks (rest : List Char) :
    ∀ d ∈ blanks, exponentLength (d :: rest) = 0 :=
  forall_mem_blanks.mpr ⟨rfl, rfl, rfl, rfl, rfl⟩

theorem suffixLength_of_mem_blanks (rest : List Char) :
    ∀ d ∈ blanks, suffixLength (d :: rest) = 0 :=
  forall_mem_blanks.mpr ⟨rfl, rfl, rfl, rfl, rfl⟩

theorem two?_of_mem_blanks {d : Char} (hd : d ∈ blanks) (c : Char) : Mark.two? c d = none := by
  unfold Mark.two?
  split <;> first | rfl | exact absurd hd (by decide)

section

variable (hb : ∀ d ∈ b.head?, d ∈ blanks)

include hb

/-- To what makes no difference between white space and the end of the text, it makes none whether
white space comes behind. -/
theorem apply_head?_append {α : Type} (f : Option Char → α)
    (hf : ∀ d ∈ blanks, f (some d) = f none) (a : List Char) :
    f (a ++ b).head? = f a.head? := by
  cases a with
  | nil =>
    cases b with
    | nil => rfl
    | cons d b => exact hf d (hb d rfl)
  | cons x a => rfl

theorem digitCount_append (a : List Char) : digitCount (a ++ b) = digitCount a := by
  rw [digitCount, takeWhile_append_of_head fun d hd => isDigit_of_mem_blanks d (hb d hd)]
  rfl

theorem exponentLength_append (a : List Char) : exponentLength (a ++ b) = exponentLength a := by
  match a with
  | [] =>
    cases b with
    | nil => rfl
    | cons d b => exact exponentLength_of_mem_blanks b d (hb d rfl)
  | [mark] =>
    cases b with
    | nil => rfl
    | cons d b =>
      -- white space is no sign and no digit, so there is no exponent behind the mark
      have hcount : digitCount (d :: b) = 0 := digitCount_append hb []
      have hsign : ¬(d == '+' || d == '-') = true := by
        have h : ∀ d ∈ blanks, ¬(d == '+' || d == '-') = true := forall_mem_blanks.mpr (by decide)
        exact h d (hb d rfl)
      simp [exponentLength, hcount, hsign]
  | mark :: sign :: rest =>
    simp only [List.cons_append, exponentLength, digitCount_append hb]
    rw [← List.cons_append, digitCount_append hb]

theorem suffixLength_append (a : List Char) : suffixLength (a ++ b) = suffixLength a := by
  cases a with
  | nil =>
    cases b with
    | nil => rfl
    | cons d b => exact suffixLength_of_mem_blanks b d (hb d rfl)
  | cons x a => rfl

theorem floatPiece_append {length : Nat} (hlength : length ≤ a.length) :
    floatPiece (a ++ b) length = floatPiece a length := by
  unfold floatPiece
  rw [List.take_append_of_le_length hlength, List.drop_append_of_le_length hlength,
    suffixLength_append hb]

theorem numberPiece_append (a : List Char) : numberPiece (a ++ b) = numberPiece a := by
  have hcount : digitCount (a ++ b) = digitCount a := digitCount_append hb a
  have hwhole : digitCount a ≤ a.length := digitCount_le a
  have hdrop : (a ++ b).drop (digitCount (a ++ b)) = a.drop (digitCount a) ++ b := by
    rw [hcount, List.drop_append_of_le_length hwhole]
  have hlength : (a.drop (digitCount a)).length = a.length - digitCount a := List.length_drop
  by_cases hpoint : (a.drop (digitCount a)).head? = some '.'
  · obtain ⟨rest, hrest⟩ := List.head?_eq_some_iff.mp hpoint
    have hfraction : digitCount rest ≤ rest.length := digitCount_le rest
    have hexponent := exponentLength_le (rest.drop (digitCount rest))
    rw [List.length_drop] at hexponent
    rw [hrest, List.length_cons] at hlength
    rw [hrest, List.cons_append] at hdrop
    rw [numberPiece_of_point hrest, numberPiece_of_point hdrop, hcount, digitCount_append hb,
      List.drop_append_of_le_length hfraction, exponentLength_append hb]
    exact floatPiece_append hb (by omega)
  · have hpoint' : ((a ++ b).drop (digitCount (a ++ b))).head? ≠ some '.' := by
      have hhead := apply_head?_append hb (· = some '.')
        (forall_mem_blanks.mpr (by decide)) (a.drop (digitCount a))
      rwa [hdrop, ne_eq, hhead]
    have hexponent := exponentLength_le (a.drop (digitCount a))
    rw [numberPiece_of_not_point hpoint, numberPiece_of_not_point hpoint', hdrop,
      exponentLength_append hb, hcount, List.take_append_of_le_length hwhole,
      floatPiece_append hb (by omega)]

theorem fractionPiece_append (c : Char) (a : List Char) :
    fractionPiece (c :: (a ++ b)) = fractionPiece (c :: a) := by
  have hfraction : digitCount a ≤ a.length := digitCount_le a
  have hexponent := exponentLength_le (a.drop (digitCount a))
  rw [List.length_drop] at hexponent
  simp only [fractionPiece, Nat.add_comm 1, List.drop_succ_cons, List.drop_zero,
    digitCount_append hb, List.drop_append_of_le_length hfraction, exponentLength_append hb]
  exact floatPiece_append (a := c :: a) hb (by rw [List.length_cons]; omega)

theorem wordPiece_append (a : List Char) : wordPiece (a ++ b) = wordPiece a := by
  unfold wordPiece
  rw [takeWhile_append_of_head fun d hd => continuesName_of_mem_blanks d (hb d hd)]

theorem markPiece_append (c : Char) (a : List Char) : markPiece c (a ++ b) = markPiece c a := by
  have htwo := apply_head?_append hb (·.bind (Mark.two? c)) (fun d hd => two?_of_mem_blanks hd c) a
  unfold markPiece
  rw [htwo]

/-- A token is the same in front of white space. -/
theorem piece_before_blank (h : piece c a = (.token kind, n)) :
    piece c (a ++ b) = (.token kind, n) := by
  have hline := apply_head?_append hb (· == some '/') (forall_mem_blanks.mpr (by decide)) a
  have hblock := apply_head?_append hb (· == some '*') (forall_mem_blanks.mpr (by decide)) a
  have hdigit := apply_head?_append hb (fun d => (d.map Char.isDigit).getD false)
    (forall_mem_blanks.mpr (by decide)) a
  unfold piece at h ⊢
  rw [hline, hblock, hdigit, ← List.cons_append, numberPiece_append hb, wordPiece_append hb,
    markPiece_append hb, List.cons_append, fractionPiece_append hb]
  -- only a comment could be another piece, and a comment is no token
  split at h
  · cases h
  · split at h
    · cases h
    · split at h
      · split at h <;> cases h
      · next hblank hcomment hopen => rwa [if_neg hblank, if_neg hcomment, if_neg hopen]

end

/-- In front of white space a lexeme is scanned as a token. -/
theorem scanFrom_lexeme {slice : List Char} (h : Lexeme slice kind)
    (hb : ∀ d ∈ b.head?, d ∈ blanks) (offset : Nat) :
    scanFrom offset (slice ++ b) =
      .ok ⟨kind, ⟨offset, offset + byteLength slice⟩⟩ ::
        scanFrom (offset + byteLength slice) b := by
  obtain ⟨c, a, rfl, hpiece⟩ := h.spells
  exact scanFrom_append_of_token (piece_before_blank hb hpiece) offset

end Scan

open Scan

/-! ## Joined slices -/

/-- Layout that begins with white space. -/
def Separator (text : List Char) : Prop :=
  ∃ c rest, text = c :: rest ∧ c ∈ blanks ∧ Layout rest

theorem Separator.layout {text : List Char} (h : Separator text) : Layout text := by
  obtain ⟨c, rest, rfl, hc, hrest⟩ := h
  exact .blank hc hrest

theorem Separator.mem_blanks {text : List Char} (h : Separator text) (behind : List Char) :
    ∀ d ∈ (text ++ behind).head?, d ∈ blanks := by
  obtain ⟨c, rest, rfl, hc, -⟩ := h
  intro d hd
  cases hd
  exact hc

/-- A text of these slices, in their order, with a separator between any two. -/
inductive Joined : List String → String → Prop
  | nil : Joined [] ""
  | single (slice : String) : Joined [slice] slice
  | cons {slice next sep text : String} {rest : List String} (hsep : Separator sep.toList)
      (h : Joined (next :: rest) text) : Joined (slice :: next :: rest) (slice ++ sep ++ text)

namespace Joined

variable {slices : List String} {text : String}

/-- Lexemes are scanned as tokens when they are joined. -/
theorem scanFrom (h : Joined slices text) {kinds : List Kind}
    (hkinds : List.Forall₂ (fun kind slice => Lexeme slice.toList kind) kinds slices)
    {behind : List Char} (hb : ∀ d ∈ behind.head?, d ∈ blanks) (offset : Nat) :
    ∃ us : List Token, us.map Token.kind = kinds ∧
      scanFrom offset (text.toList ++ behind) =
        us.map .ok ++ scanFrom (offset + byteLength text.toList) behind := by
  induction h generalizing kinds offset with
  | nil =>
    cases hkinds
    exact ⟨[], rfl, rfl⟩
  | single slice =>
    obtain _ | ⟨hslice, ⟨⟩⟩ := hkinds
    exact ⟨[_], rfl, scanFrom_lexeme hslice hb offset⟩
  | @cons slice next sep text rest hsep _ ih =>
    obtain _ | ⟨hslice, hrest⟩ := hkinds
    obtain ⟨us, hus, hscan⟩ := ih hrest (offset + byteLength (slice ++ sep).toList)
    rw [String.toList_append, byteLength_append, ← Nat.add_assoc] at hscan
    refine ⟨⟨_, ⟨offset, offset + byteLength slice.toList⟩⟩ :: us, by rw [List.map_cons, hus], ?_⟩
    simp only [String.toList_append, List.append_assoc, byteLength_append]
    rw [scanFrom_lexeme hslice (hsep.mem_blanks _), scanFrom_layout hsep.layout, hscan]
    simp [Nat.add_assoc]

/-- A last slice that is empty leaves no more than layout. -/
theorem of_concat_empty (h : Joined (slices ++ [""]) text) :
    ∃ body behind, text = body ++ behind ∧ Joined slices body ∧ Layout behind.toList ∧
      ∀ d ∈ behind.toList.head?, d ∈ blanks := by
  induction slices generalizing text with
  | nil =>
    cases h
    exact ⟨"", "", rfl, .nil, .nil, by simp⟩
  | cons slice slices ih =>
    cases slices with
    | nil =>
      obtain _ | _ | ⟨hsep, hlast⟩ := h
      cases hlast
      exact ⟨slice, _, by simp, .single slice, hsep.layout, by simpa using hsep.mem_blanks []⟩
    | cons next slices =>
      obtain _ | _ | ⟨hsep, hrest⟩ := h
      obtain ⟨body, behind, rfl, hbody, hbehind⟩ := ih hrest
      exact ⟨_, behind, (String.append_assoc ..).symm, .cons hsep hbody, hbehind⟩

end Joined

namespace Stream

/-- **Layout does not matter.** The slices that the tokens of a text were scanned from, joined by
any separators, are scanned as tokens of the same kinds; whether the end, whose slice is empty, is
set apart from the last of them makes no difference. -/
theorem kinds_of_joined {source : String} {ts : List Token}
    (h : (ofText source).tokens? = .ok ts) :
    ∃ slices, List.Forall₂ (fun t slice => t.span.Delimits source slice) ts slices ∧
      ∀ text, Joined slices text ∨ Joined slices.dropLast text →
        ∃ us, (ofText text).tokens? = .ok us ∧ us.map Token.kind = ts.map Token.kind := by
  obtain ⟨us, hscan, rfl⟩ := tokens?_ofText_eq_ok.mp h
  choose! slice hdelimits hlexeme using (Fills.of_scanFrom hscan).spelled
  have hend : (Span.point source.utf8ByteSize).Delimits source "" :=
    ⟨source, "", by simp, rfl, by simp [Span.point]⟩
  refine ⟨us.map slice ++ [""], ?_, fun text htext => ?_⟩
  · exact List.rel_append (List.forall₂_map_right_iff.mpr (List.forall₂_same.mpr hdelimits))
      (.cons hend .nil)
  · have hkinds : List.Forall₂ (fun kind slice => Lexeme slice.toList kind) (us.map Token.kind)
        (us.map slice) := by
      rw [List.forall₂_map_left_iff, List.forall₂_map_right_iff]
      exact List.forall₂_same.mpr hlexeme
    obtain ⟨body, behind, rfl, hbody, hlayout, hblank⟩ : ∃ body behind, text = body ++ behind ∧
        Joined (us.map slice) body ∧ Layout behind.toList ∧
          ∀ d ∈ behind.toList.head?, d ∈ blanks := by
      rcases htext with htext | htext
      · exact htext.of_concat_empty
      · rw [List.dropLast_concat] at htext
        exact ⟨text, "", by simp, htext, .nil, by simp⟩
    obtain ⟨vs, hvs, hjoined⟩ := hbody.scanFrom hkinds hblank 0
    have hrest := scanFrom_layout hlayout (0 + byteLength body.toList) []
    rw [List.append_nil, Scan.scanFrom] at hrest
    rw [hrest, List.append_nil, ← String.toList_append] at hjoined
    exact ⟨_, tokens?_ofText_eq_ok.mpr ⟨vs, hjoined, rfl⟩, by simp [hvs]⟩

/-- A division stays one where a comment comes behind it. -/
theorem kinds_of_joined_of_comment :
    let kinds : List Kind := [.name "a", .mark .slash, .int 1, .endOfText]
    (∃ ts, (ofText "a/1").tokens? = .ok ts ∧ ts.map Token.kind = kinds) ∧
      ∃ us, (ofText "a /\t/* by */1").tokens? = .ok us ∧ us.map Token.kind = kinds := by
  have h : (ofText "a/1").tokens? = .ok [⟨.name "a", ⟨0, 1⟩⟩, ⟨.mark .slash, ⟨1, 2⟩⟩,
      ⟨.int 1, ⟨2, 3⟩⟩, ⟨.endOfText, ⟨3, 3⟩⟩] := by cbv
  obtain ⟨slices, hslices, hjoined⟩ := kinds_of_joined h
  have hcut : List.Forall₂ (fun (t : Token) slice => t.span.Delimits "a/1" slice)
      [⟨.name "a", ⟨0, 1⟩⟩, ⟨.mark .slash, ⟨1, 2⟩⟩, ⟨.int 1, ⟨2, 3⟩⟩, ⟨.endOfText, ⟨3, 3⟩⟩]
      ["a", "/", "1", ""] :=
    .cons ⟨"", "/1", rfl, rfl, rfl⟩ <| .cons ⟨"a", "1", rfl, rfl, rfl⟩ <|
      .cons ⟨"a/", "", rfl, rfl, rfl⟩ <| .cons ⟨"a/1", "", rfl, rfl, rfl⟩ .nil
  have heq : slices = ["a", "/", "1", ""] :=
    List.right_unique_forall₂' (fun _ _ _ hs hs' => hs.unique hs') hslices hcut
  have hcomment : Layout ('/' :: '*' :: (" by ".toList ++ ['*', '/'])) :=
    .block (by decide) .nil
  have hsep : Separator "\t/* by */".toList := ⟨'\t', _, rfl, by decide, hcomment⟩
  have htext : Joined ["a", "/", "1"] ("a" ++ " " ++ ("/" ++ "\t/* by */" ++ "1")) :=
    .cons ⟨' ', [], rfl, by decide, .nil⟩ (.cons hsep (.single "1"))
  exact ⟨⟨_, h, rfl⟩, hjoined _ (.inr (heq ▸ htext))⟩

end Stream

end ShaderLang.Token
