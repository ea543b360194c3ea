import ShaderLang.Proofs.Lexeme

/-!
# Layout

Between tokens stand white space and comments, and nothing else: the tokens of a text without
faults, in their order, and the layout around them are all of it (`Stream.fills_of_tokens?`).

The text is followed piece by piece. A piece with a token is a lexeme; a piece without one is
layout, but for the end of the line, which a line comment leaves to the next piece
(`Scan.piece_blank`). So the text is laid out from the left (`Laid.of_scanFrom`), and what is laid
out stands where the spans say (`Laid.fills`).
-/

namespace ShaderLang.Token

/-- What may stand between tokens: white space, comments that end with their line, and comments that
end where they are first closed. -/
inductive Layout : List Char → Prop
  | nil : Layout []
  | blank {c : Char} {rest : List Char} (hc : c ∈ blanks) (h : Layout rest) : Layout (c :: rest)
  | line {body rest : List Char} (hbody : '\n' ∉ body) (h : Layout rest) :
      Layout ('/' :: '/' :: (body ++ '\n' :: rest))
  | block {body rest : List Char} (hbody : ¬['*', '/'] <:+: body ++ ['*']) (h : Layout rest) :
      Layout ('/' :: '*' :: (body ++ '*' :: '/' :: rest))

/-- What may stand behind the last token: layout, of which the end of the text may be the end of
a last comment. -/
def EndLayout (text : List Char) : Prop :=
  Layout text ∨ ∃ gap body, text = gap ++ '/' :: '/' :: body ∧ Layout gap ∧ '\n' ∉ body

theorem Layout.append {x y : List Char} (hx : Layout x) (hy : Layout y) : Layout (x ++ y) := by
  induction hx with
  | nil => exact hy
  | blank hc _ ih => exact .blank hc ih
  | line hbody _ ih => simpa using Layout.line hbody ih
  | block hbody _ ih => simpa using Layout.block hbody ih

theorem EndLayout.prepend {x y : List Char} (hx : Layout x) (hy : EndLayout y) :
    EndLayout (x ++ y) := by
  rcases hy with hy | ⟨gap, body, rfl, hgap, hbody⟩
  · exact .inl (hx.append hy)
  · exact .inr ⟨x ++ gap, body, by simp, hx.append hgap, hbody⟩

/-- Behind white space there is layout again. -/
theorem Layout.of_cons {c : Char} {rest : List Char} (hc : c ∈ blanks) (h : Layout (c :: rest)) :
    Layout rest := by
  cases h with
  | blank _ h => exact h
  | line => exact absurd hc (by decide)
  | block => exact absurd hc (by decide)

theorem EndLayout.of_cons {c : Char} {rest : List Char} (hc : c ∈ blanks)
    (h : EndLayout (c :: rest)) : EndLayout rest := by
  rcases h with h | ⟨gap, body, heq, hgap, hbody⟩
  · exact .inl (h.of_cons hc)
  · cases gap with
    | nil =>
      cases heq
      exact absurd hc (by decide)
    | cons d gap =>
      cases heq
      exact .inr ⟨gap, body, rfl, hgap.of_cons hc, hbody⟩

namespace Scan

variable {c : Char} {text rest : List Char} {n : Nat}

/-! ## Comments -/

/-- A comment goes up to where it is first closed. -/
theorem commentEnd?_append (hbody : ¬['*', '/'] <:+: body ++ ['*']) (rest : List Char) :
    commentEnd? (body ++ '*' :: '/' :: rest) = some (body.length + 2) := by
  induction body with
  | nil => rfl
  | cons x body ih =>
    have hopen : ∀ tail, x = '*' → body ++ '*' :: '/' :: rest = '/' :: tail → False := by
      rintro tail rfl htail
      cases body with
      | nil => cases htail
      | cons y body =>
        cases htail
        exact hbody ⟨[], body ++ ['*'], rfl⟩
    have hrest : ¬['*', '/'] <:+: body ++ ['*'] := fun h => hbody (List.infix_cons h)
    rw [List.cons_append, commentEnd?.eq_2 _ _ hopen, ih hrest]
    rfl

theorem exists_commentEnd? (h : commentEnd? text = some n) :
    ∃ body rest, text = body ++ '*' :: '/' :: rest ∧ n = body.length + 2 ∧
      ¬['*', '/'] <:+: body ++ ['*'] := by
  fun_induction commentEnd? text generalizing n with
  | case1 rest =>
    cases h
    exact ⟨[], rest, rfl, rfl, by decide⟩
  | case2 x tail hopen ih =>
    obtain ⟨k, hk, rfl⟩ := Option.map_eq_some_iff.mp h
    obtain ⟨body, rest, rfl, rfl, hbody⟩ := ih hk
    refine ⟨x :: body, rest, rfl, rfl, fun hinside => ?_⟩
    rcases List.infix_cons_iff.mp hinside with hfront | hinside
    · obtain ⟨rfl, hslash⟩ := List.cons_prefix_cons.mp hfront
      cases body with
      | nil => exact absurd (List.cons_prefix_cons.mp hslash).1 (by decide)
      | cons y body =>
        obtain ⟨rfl, -⟩ := List.cons_prefix_cons.mp hslash
        exact hopen _ rfl rfl
    · exact hbody hinside
  | case3 => cases h

/-! ## Pieces without a token -/

theorem layout_of_blanks (h : ∀ d ∈ text, isBlank d = true) : Layout text := by
  induction text with
  | nil => exact .nil
  | cons d text ih =>
    rw [List.forall_mem_cons] at h
    exact .blank (isBlank_iff.mp h.1) (ih h.2)

theorem drop_takeWhile (p : Char → Bool) (text : List Char) :
    text.drop (text.takeWhile p).length = text.dropWhile p := by
  calc text.drop (text.takeWhile p).length
    _ = (text.takeWhile p ++ text.dropWhile p).drop (text.takeWhile p).length := by
      rw [List.takeWhile_append_dropWhile]
    _ = text.dropWhile p := List.drop_left

theorem floatPiece_ne_blank (length : Nat) : floatPiece text length ≠ (.blank, n) := by
  unfold floatPiece
  split <;> simp

theorem numberPiece_ne_blank : numberPiece text ≠ (.blank, n) := by
  unfold numberPiece
  dsimp only
  split
  · exact floatPiece_ne_blank _
  · split
    · split <;> simp
    · exact floatPiece_ne_blank _

theorem markPiece_ne_blank : markPiece c rest ≠ (.blank, n) := by
  unfold markPiece
  split
  · simp
  · split <;> simp

/-- A piece without a token is layout, or the beginning of a comment that ends with its line. -/
theorem piece_blank (h : piece c rest = (.blank, n)) :
    Layout (pieceText c rest n) ∨
      ∃ body, pieceText c rest n = '/' :: '/' :: body ∧ '\n' ∉ body ∧
        ((rest.drop (n - 1)) = [] ∨ ∃ tail, rest.drop (n - 1) = '\n' :: tail) := by
  unfold piece at h
  split at h
  · next hblank =>
    cases h
    refine .inl (.blank (isBlank_iff.mp hblank) (layout_of_blanks fun d hd => ?_))
    rw [Nat.add_sub_cancel_left, take_takeWhile] at hd
    exact List.mem_takeWhile_imp hd
  · split at h
    · next hline =>
      obtain ⟨hc, hhead⟩ := Bool.and_eq_true_iff.mp hline
      obtain ⟨tail, rfl⟩ := List.head?_eq_some_iff.mp (eq_of_beq hhead)
      cases h
      refine .inr ⟨tail.takeWhile (· != '\n'), ?_, fun hmem => ?_, ?_⟩
      · rw [pieceText, Nat.add_sub_cancel_left, take_takeWhile, eq_of_beq hc]
        rfl
      · simpa using List.mem_takeWhile_imp hmem
      · rw [Nat.add_sub_cancel_left, drop_takeWhile]
        cases hdrop : ('/' :: tail).dropWhile (· != '\n') with
        | nil => exact .inl rfl
        | cons d behind =>
          have hd : d = '\n' := by
            have hne : ('/' :: tail).dropWhile (· != '\n') ≠ [] := by simp [hdrop]
            simpa [hdrop] using List.head_dropWhile_not (· != '\n') hne
          exact .inr ⟨behind, by rw [hd]⟩
    · split at h
      · split at h
        · next hblock _ length hend =>
          cases h
          obtain ⟨hc, hhead⟩ := Bool.and_eq_true_iff.mp hblock
          obtain ⟨tail, rfl⟩ := List.head?_eq_some_iff.mp (eq_of_beq hhead)
          obtain ⟨body, rest, htail, rfl, hbody⟩ := exists_commentEnd? hend
          refine .inl ?_
          have htext : pieceText c ('*' :: tail) (2 + (body.length + 2)) =
              '/' :: '*' :: (body ++ ['*', '/']) := by
            rw [pieceText, eq_of_beq hc, show tail = body ++ '*' :: '/' :: rest from htail]
            simp [show 2 + (body.length + 2) - 1 = body.length + 2 + 1 by omega, List.take_append,
              List.take_of_length_le]
          rw [htext]
          exact .block hbody .nil
        · cases h
      · split at h
        · exact absurd h numberPiece_ne_blank
        · split at h
          · exact absurd h (floatPiece_ne_blank _)
          · split at h
            · cases h
            · exact absurd h markPiece_ne_blank

end Scan

open Scan

/-! ## Tokens among layout -/

/-- A text from an offset on, as the tokens in it and the layout in front of each and behind the
last one. -/
inductive Laid : Nat → List Char → List Token → Prop
  | done {offset : Nat} {text : List Char} (h : EndLayout text) : Laid offset text []
  | token {start stop offset : Nat} {gap slice rest : List Char} {kind : Kind} {ts : List Token}
      (hgap : Layout gap) (hslice : Lexeme slice kind)
      (hlongest : ∀ other kind', Lexeme other kind' → other <+: slice ++ rest →
        other.length ≤ slice.length)
      (hstart : start = offset + byteLength gap) (hstop : stop = start + byteLength slice)
      (hrest : Laid stop rest ts) :
      Laid offset (gap ++ (slice ++ rest)) (⟨kind, ⟨start, stop⟩⟩ :: ts)

namespace Laid

variable {offset : Nat} {text gap : List Char} {ts : List Token}

/-- Layout may be put in front. -/
theorem prepend (hgap : Layout gap) (h : Laid (offset + byteLength gap) text ts) :
    Laid offset (gap ++ text) ts := by
  cases h with
  | done h => exact .done (h.prepend hgap)
  | @token start stop _ gap' slice rest kind ts hgap' hslice hlongest hstart hstop hrest =>
    rw [← List.append_assoc]
    refine .token (hgap.append hgap') hslice hlongest ?_ hstop hrest
    rw [byteLength_append, hstart, Nat.add_assoc]

/-- White space may be taken off in front. -/
theorem of_cons {c : Char} (hc : c ∈ blanks) (h : Laid offset (c :: text) ts) :
    Laid (offset + c.utf8Size) text ts := by
  generalize heq : c :: text = whole at h
  cases h with
  | done h => exact .done (EndLayout.of_cons hc (heq ▸ h))
  | @token start stop _ gap slice rest kind ts hgap hslice hlongest hstart hstop hrest =>
    cases gap with
    | nil =>
      cases slice with
      | nil => exact absurd hslice.byteLength_pos (Nat.lt_irrefl 0)
      | cons d slice =>
        cases heq
        exact absurd hc hslice.not_mem_blanks
    | cons d gap =>
      cases heq
      refine .token (hgap.of_cons hc) hslice hlongest ?_ hstop hrest
      rw [hstart]
      simp only [byteLength, List.foldr_cons]
      omega

/-- In no text there are no tokens. -/
theorem eq_nil (h : Laid offset [] ts) : ts = [] := by
  generalize heq : ([] : List Char) = whole at h
  cases h with
  | done => rfl
  | token hgap hslice =>
    obtain ⟨c, rest, rfl, -⟩ := hslice.spells
    simp at heq

/-- A comment that goes on to the end of its line may be put in front of it. -/
theorem prepend_line {body : List Char} (hbody : '\n' ∉ body)
    (hend : text = [] ∨ ∃ tail, text = '\n' :: tail)
    (h : Laid (offset + byteLength ('/' :: '/' :: body)) text ts) :
    Laid offset ('/' :: '/' :: body ++ text) ts := by
  rcases hend with rfl | ⟨tail, rfl⟩
  · rw [h.eq_nil, List.append_nil]
    exact .done (.inr ⟨[], body, rfl, .nil, hbody⟩)
  · have hline : Layout ('/' :: '/' :: body ++ ['\n']) := .line hbody .nil
    have hbytes : byteLength ('/' :: '/' :: body ++ ['\n']) =
        byteLength ('/' :: '/' :: body) + '\n'.utf8Size := byteLength_append _ _
    have hrest := h.of_cons (c := '\n') (by decide)
    rw [Nat.add_assoc, ← hbytes] at hrest
    simpa using hrest.prepend hline

/-- What is scanned is tokens among layout. -/
theorem of_scanFrom (h : scanFrom offset text = ts.map .ok) : Laid offset text ts := by
  induction offset, text using scan_induction generalizing ts with
  | nil offset =>
    rw [scanFrom] at h
    obtain rfl : ts = [] := List.map_eq_nil_iff.mp h.symm
    exact .done (.inl .nil)
  | blank offset c rest n hpiece ih =>
    rw [scanFrom_blank offset hpiece] at h
    rw [← pieceText_append c rest n]
    rcases piece_blank hpiece with hlayout | ⟨body, hbody, hline, hend⟩
    · exact prepend hlayout (ih h)
    · have hrest := ih h
      rw [hbody] at hrest ⊢
      exact prepend_line hline hend hrest
  | token offset c rest n kind hpiece ih =>
    rw [scanFrom_token offset hpiece] at h
    cases ts with
    | nil => cases h
    | cons t ts =>
      obtain ⟨ht, hts⟩ := List.cons.inj h
      cases ht
      rw [← pieceText_append c rest n]
      refine .token .nil (lexeme_of_piece hpiece) (fun other kind' hother hfront => ?_) rfl rfl
        (ih hts)
      rw [pieceText_append] at hfront
      rw [length_pieceText hpiece]
      exact hother.length_le hfront hpiece
  | fault offset c rest n hpiece _ =>
    obtain ⟨fault, hfault⟩ := exists_scanFrom_fault offset hpiece
    rw [hfault] at h
    cases ts <;> cases h

end Laid

/-- The stretches of a text in front of its tokens, from an offset on. -/
def gaps (offset : Nat) : List Token → List Span
  | [] => []
  | t :: ts => ⟨offset, t.span.start⟩ :: gaps t.span.stop ts

/-- From an offset on there is nothing in a text but these tokens, each where its span says and as
long as possible, with layout around them. -/
structure Fills (source : String) (offset : Nat) (ts : List Token) : Prop where
  spelled : ∀ t ∈ ts, ∃ slice, t.span.Delimits source slice ∧ Lexeme slice.toList t.kind
  longest : ∀ t ∈ ts, ∀ (s : Span) (slice : String) (kind : Kind), s.start = t.span.start →
    s.Delimits source slice → Lexeme slice.toList kind → s.stop ≤ t.span.stop
  between : ∀ gap ∈ gaps offset ts, ∃ slice, gap.Delimits source slice ∧ Layout slice.toList
  behind : ∃ slice, (⟨stopAfter offset ts, source.utf8ByteSize⟩ : Span).Delimits source slice ∧
    EndLayout slice.toList

theorem delimits_of_append {source : String} {slice : List Char} {s : Span}
    (before behind : List Char) (hsource : source.toList = before ++ (slice ++ behind))
    (hstart : s.start = byteLength before)
    (hstop : s.stop = byteLength before + byteLength slice) :
    s.Delimits source (String.ofList slice) := by
  refine ⟨String.ofList before, String.ofList behind, ?_, ?_, ?_⟩
  · rw [← String.ofList_append, ← String.ofList_append, List.append_assoc, ← hsource,
      String.ofList_toList]
  · rw [utf8ByteSize_ofList, hstart]
  · rw [← String.ofList_append, utf8ByteSize_ofList, byteLength_append, hstop]

theorem stop_le_of_delimits {source other : String} {before slice rest : List Char} {s : Span}
    (h : s.Delimits source other) (hsource : source.toList = before ++ (slice ++ rest))
    (hstart : s.start = byteLength before)
    (hlongest : other.toList <+: slice ++ rest → other.toList.length ≤ slice.length) :
    s.stop ≤ byteLength before + byteLength slice := by
  obtain ⟨x, y, rfl, hx, hstop⟩ := h
  simp only [String.toList_append, List.append_assoc] at hsource
  rw [← byteLength_toList] at hx hstop
  rw [String.toList_append, byteLength_append, hx, hstart] at hstop
  obtain ⟨-, hrest⟩ := append_inj_of_byteLength hsource (hx.trans hstart)
  have hfront : other.toList <+: slice ++ rest := ⟨y.toList, hrest⟩
  obtain ⟨more, rfl⟩ := List.prefix_of_prefix_length_le hfront (List.prefix_append slice rest)
    (hlongest hfront)
  rw [← hstop, byteLength_append]
  omega

/-- Tokens among layout fill the text that they were laid out in. -/
theorem Laid.fills {source : String} {offset : Nat} {text : List Char} {ts : List Token}
    (h : Laid offset text ts) (before : List Char) (hsource : source.toList = before ++ text)
    (hoffset : offset = byteLength before) : Fills source offset ts := by
  induction h generalizing before with
  | @done offset text hend =>
    have hsize : source.utf8ByteSize = byteLength before + byteLength text := by
      rw [← byteLength_toList, hsource, byteLength_append]
    refine ⟨by simp, by simp, by simp [gaps], String.ofList text, ?_, by rwa [String.toList_ofList]⟩
    exact delimits_of_append before [] (by rw [List.append_nil, hsource]) hoffset hsize
  | @token start stop offset gap slice rest kind ts hgap hslice hlongest hstart hstop _ ih =>
    have hsource' : source.toList = before ++ gap ++ (slice ++ rest) := by rw [hsource]; simp
    have hbefore : start = byteLength (before ++ gap) := by
      rw [byteLength_append, hstart, hoffset]
    obtain ⟨hspelled', hlongest', hbetween', hbehind⟩ := ih (before ++ gap ++ slice)
      (by rw [hsource']; simp) (by rw [byteLength_append, ← hbefore, hstop])
    constructor
    case spelled =>
      refine List.forall_mem_cons.mpr ⟨⟨String.ofList slice, ?_, ?_⟩, hspelled'⟩
      · exact delimits_of_append (before ++ gap) rest hsource' hbefore
          (by rw [← hbefore]; exact hstop)
      · rwa [String.toList_ofList]
    case longest =>
      refine List.forall_mem_cons.mpr ⟨fun s other kind' hs hother hlexeme => ?_, hlongest'⟩
      have hle := stop_le_of_delimits hother hsource' (hs.trans hbefore)
        (hlongest other.toList kind' hlexeme)
      rwa [← hbefore, ← hstop] at hle
    case between =>
      refine List.forall_mem_cons.mpr ⟨⟨String.ofList gap, ?_, ?_⟩, hbetween'⟩
      · exact delimits_of_append before _ hsource hoffset (by rw [← hoffset]; exact hstart)
      · rwa [String.toList_ofList]
    case behind => exact hbehind

theorem Fills.of_scanFrom {source : String} {ts : List Token}
    (h : scanFrom 0 source.toList = ts.map .ok) : Fills source 0 ts :=
  (Laid.of_scanFrom h).fills [] rfl rfl

namespace Stream

theorem mapM_id_eq_ok {results : List (Except Fault Token)} {us : List Token} :
    results.mapM id = .ok us ↔ results = us.map .ok := by
  induction results generalizing us with
  | nil => cases us <;> simp [pure, Except.pure]
  | cons result rest ih =>
    cases result with
    | error fault => cases us <;> simp [bind, Except.bind]
    | ok t =>
      cases us with
      | nil => cases hrest : rest.mapM id <;> simp [hrest, bind, Except.bind, pure, Except.pure]
      | cons u us =>
        simp only [List.map_cons, List.cons.injEq, Except.ok.injEq, ← ih]
        cases hrest : rest.mapM id <;> simp [hrest, bind, Except.bind, pure, Except.pure]

/-- The tokens of a text are what is scanned from it, and its end. -/
theorem tokens?_ofText_eq_ok {source : String} {ts : List Token} :
    (ofText source).tokens? = .ok ts ↔ ∃ us, scanFrom 0 source.toList = us.map .ok ∧
      ts = us ++ [⟨.endOfText, .point source.utf8ByteSize⟩] := by
  simp only [tokens?, ofText, ← mapM_id_eq_ok]
  cases (scanFrom 0 source.toList).mapM id with
  | error fault => simp [bind, Except.bind]
  | ok us => simp [bind, Except.bind, pure, Except.pure, endToken, eq_comm]

/-- **Scanning loses no text.** Of a text without faults the tokens take up a byte at least each,
one behind the other, and each is the longest lexeme that begins in its place; the end comes last,
where the text ends; and what lies in front of each token and behind the last one is white space and
comments. -/
theorem fills_of_tokens? {source : String} {ts : List Token}
    (h : (ofText source).tokens? = .ok ts) :
    ∃ us, ts = us ++ [⟨.endOfText, .point source.utf8ByteSize⟩] ∧ InOrder us ∧
      (∀ t ∈ us, t.kind.isEnd = false) ∧ Fills source 0 us := by
  obtain ⟨us, hscan, rfl⟩ := tokens?_ofText_eq_ok.mp h
  refine ⟨us, rfl, (inOrder_of_scanFrom hscan).1, fun t ht => ?_, ?_⟩
  · exact isEnd_of_mem_scanFrom (hscan ▸ List.mem_map_of_mem ht)
  · exact .of_scanFrom hscan

/-- The last comment ends with the text, the first one where it is closed, behind stars of its
own. -/
theorem fills_of_tokens?_of_comments :
    let source := " a/* **/=1;// end"
    let us : List Token := [⟨.name "a", ⟨1, 2⟩⟩, ⟨.mark .assign, ⟨8, 9⟩⟩, ⟨.int 1, ⟨9, 10⟩⟩,
      ⟨.mark .semicolon, ⟨10, 11⟩⟩]
    (ofText source).tokens? = .ok (us ++ [⟨.endOfText, ⟨17, 17⟩⟩]) ∧ InOrder us ∧
      Fills source 0 us := by
  intro source us
  have h : (ofText source).tokens? = .ok (us ++ [⟨.endOfText, ⟨17, 17⟩⟩]) := by cbv
  obtain ⟨vs, heq, horder, -, hfills⟩ := fills_of_tokens? h
  obtain ⟨rfl, -⟩ := List.append_inj' heq rfl
  exact ⟨h, horder, hfills⟩

end Stream

end ShaderLang.Token
