import ShaderLang.Proofs.Taking

/-!
# Slices of a text

Scanning is local. What a piece is depends on no character behind it (`Scan.piece_of_append`), so
a row of tokens in a text, with nothing cut off but what is in front of the first of them and behind
the last one, is scanned from that slice of the text alone as from the whole of it
(`Scan.exists_slice`), and spans are counted from its beginning (`Scan.scanFrom_back`).
-/

namespace ShaderLang

namespace Token.Scan

variable {c : Char} {a b text : List Char} {what : Piece} {n : Nat}

/-! ## Pieces -/

theorem takeWhile_of_append (p : Char → Bool) (h : ((a ++ b).takeWhile p).length ≤ a.length) :
    a.takeWhile p = (a ++ b).takeWhile p := by
  induction a with
  | nil => simpa using h
  | cons x rest ih =>
    rw [List.cons_append, List.takeWhile_cons, List.takeWhile_cons] at *
    split
    · next hx =>
      rw [if_pos hx] at h
      rw [ih (by simpa using h)]
    · rfl

theorem digitCount_of_append (h : digitCount (a ++ b) ≤ a.length) :
    digitCount a = digitCount (a ++ b) := by
  rw [digitCount, takeWhile_of_append Char.isDigit h]
  rfl

theorem exponentLength_of_append (h : exponentLength (a ++ b) ≤ a.length) :
    exponentLength a = exponentLength (a ++ b) := by
  match a with
  | [] => exact (Nat.le_zero.mp h).symm
  | [mark] =>
    -- what is more than a mark has two characters at least
    have hzero : exponentLength (mark :: b) = 0 := by
      have h' : exponentLength (mark :: b) ≤ 1 := h
      cases b <;> grind [exponentLength]
    rw [List.cons_append, List.nil_append, hzero]
    simp [exponentLength]
  | mark :: sign :: rest =>
    simp only [List.cons_append, exponentLength, List.length_cons] at h ⊢
    split
    · next hmark =>
      rw [if_pos hmark] at h
      split
      · next hsign =>
        rw [if_pos hsign] at h
        rw [digitCount_of_append (b := b) (by split at h <;> omega)]
      · next hsign =>
        rw [if_neg hsign] at h
        rw [digitCount_of_append (a := sign :: rest) (b := b)
          (by rw [List.cons_append, List.length_cons]; split at h <;> omega)]
        rfl
    · rfl

theorem suffixLength_of_append (h : suffixLength (a ++ b) ≤ a.length) :
    suffixLength a = suffixLength (a ++ b) := by
  cases a with
  | nil => exact (Nat.le_zero.mp h).symm
  | cons x rest => rfl

theorem two_le_of_commentEnd? (h : commentEnd? text = some n) : 2 ≤ n := by
  fun_induction commentEnd? text generalizing n with
  | case1 => cases h; exact Nat.le_refl 2
  | case2 _ _ _ ih =>
    obtain ⟨k, hk, rfl⟩ := Option.map_eq_some_iff.mp h
    exact Nat.le_succ_of_le (ih hk)
  | case3 => cases h

theorem commentEnd?_of_append (h : commentEnd? (a ++ b) = some n) (hn : n ≤ a.length) :
    commentEnd? a = some n := by
  induction a generalizing n with
  | nil =>
    have := two_le_of_commentEnd? h
    simp at hn
    omega
  | cons x rest ih =>
    rw [List.cons_append] at h
    by_cases hend : x = '*' ∧ (rest ++ b).head? = some '/'
    · obtain ⟨rfl, hhead⟩ := hend
      obtain ⟨tail, htail⟩ := List.head?_eq_some_iff.mp hhead
      rw [htail, commentEnd?] at h
      cases h
      cases rest with
      | nil => simp at hn
      | cons y rest =>
        cases htail
        rfl
    · have hskip (t : List Char) (ht : t.head? = some '/' → (rest ++ b).head? = some '/') :
          commentEnd? (x :: t) = (commentEnd? t).map (· + 1) := by
        refine commentEnd?.eq_2 x t fun u hx hu => hend ⟨hx, ht ?_⟩
        rw [hu]
        rfl
      rw [hskip _ id] at h
      obtain ⟨k, hk, rfl⟩ := Option.map_eq_some_iff.mp h
      have hrest := ih hk (by simpa using hn)
      rw [hskip rest fun hr => by
        obtain ⟨tail, rfl⟩ := List.head?_eq_some_iff.mp hr
        rfl, hrest]
      rfl

theorem floatPiece_of_append {length : Nat} (h : floatPiece (a ++ b) length = (what, n))
    (hn : n ≤ a.length) : floatPiece a length = (what, n) := by
  have hlength : length ≤ a.length := by
    unfold floatPiece at h
    split at h <;> cases h <;> omega
  unfold floatPiece at h ⊢
  rw [List.take_append_of_le_length hlength, List.drop_append_of_le_length hlength] at h
  split at h
  · cases h
    rw [suffixLength_of_append (b := b) (by rw [List.length_drop]; omega)]
  · exact h

theorem le_of_floatPiece {length : Nat} (h : floatPiece text length = (what, n)) : length ≤ n := by
  unfold floatPiece at h
  split at h <;> cases h <;> omega

theorem numberPiece_of_point {rest : List Char} (h : text.drop (digitCount text) = '.' :: rest) :
    numberPiece text = floatPiece text (digitCount text + 1 + digitCount rest +
      exponentLength (rest.drop (digitCount rest))) := by
  simp only [numberPiece, h]

theorem numberPiece_of_not_point (h : (text.drop (digitCount text)).head? ≠ some '.') :
    numberPiece text =
      if exponentLength (text.drop (digitCount text)) = 0 then
        (if Decimal.natOfDigits (text.take (digitCount text)) < intLimit then
            .token (.int (.ofNat (Decimal.natOfDigits (text.take (digitCount text)))))
          else .fault, digitCount text)
      else floatPiece text (digitCount text + exponentLength (text.drop (digitCount text))) := by
  unfold numberPiece
  dsimp only
  split
  · next rest hrest =>
    rw [hrest] at h
    exact absurd rfl h
  · rfl

theorem digitCount_le_of_numberPiece (h : numberPiece text = (what, n)) : digitCount text ≤ n := by
  unfold numberPiece at h
  dsimp only at h
  split at h
  · have := le_of_floatPiece h
    omega
  · split at h
    · cases h
      exact Nat.le_refl _
    · have := le_of_floatPiece h
      omega

theorem numberPiece_of_append (h : numberPiece (a ++ b) = (what, n)) (hn : n ≤ a.length) :
    numberPiece a = (what, n) := by
  have hwhole := digitCount_le_of_numberPiece h
  have hcount : digitCount a = digitCount (a ++ b) := digitCount_of_append (by omega)
  have hdrop : (a ++ b).drop (digitCount (a ++ b)) = a.drop (digitCount a) ++ b := by
    rw [hcount, List.drop_append_of_le_length (by omega)]
  have htake : (a ++ b).take (digitCount (a ++ b)) = a.take (digitCount (a ++ b)) :=
    List.take_append_of_le_length (by omega)
  have hlength : (a.drop (digitCount a)).length = a.length - digitCount a := List.length_drop
  by_cases hpoint : ((a ++ b).drop (digitCount (a ++ b))).head? = some '.'
  · obtain ⟨rest, hrest⟩ := List.head?_eq_some_iff.mp hpoint
    rw [numberPiece_of_point hrest] at h
    have hle := le_of_floatPiece h
    rw [hdrop] at hrest
    cases htail : a.drop (digitCount a) with
    | nil =>
      rw [htail, List.length_nil] at hlength
      omega
    | cons x tail =>
      rw [htail, List.length_cons] at hlength
      rw [htail, List.cons_append, List.cons.injEq] at hrest
      obtain ⟨rfl, rfl⟩ := hrest
      rw [numberPiece_of_point htail, hcount, digitCount_of_append (a := tail) (b := b) (by omega)]
      rw [List.drop_append_of_le_length (by omega)] at h hle
      rw [exponentLength_of_append (b := b) (by rw [List.length_drop]; omega)]
      exact floatPiece_of_append h hn
  · have hpoint' : (a.drop (digitCount a)).head? ≠ some '.' := fun hhead => by
      obtain ⟨rest, hrest⟩ := List.head?_eq_some_iff.mp hhead
      rw [hdrop, hrest] at hpoint
      exact hpoint rfl
    rw [numberPiece_of_not_point hpoint, hdrop] at h
    rw [numberPiece_of_not_point hpoint']
    split at h
    · next hexponent =>
      rw [exponentLength_of_append (a := a.drop (digitCount a)) (b := b) (by omega),
        if_pos hexponent, hcount]
      rwa [htake] at h
    · next hexponent =>
      have hle := le_of_floatPiece h
      rw [exponentLength_of_append (a := a.drop (digitCount a)) (b := b) (by omega),
        if_neg hexponent]
      rw [← hcount] at h
      exact floatPiece_of_append h hn

theorem fractionPiece_of_append (h : fractionPiece (c :: (a ++ b)) = (what, n))
    (hn : n ≤ a.length + 1) : fractionPiece (c :: a) = (what, n) := by
  unfold fractionPiece at h ⊢
  have hle := le_of_floatPiece h
  simp only [List.drop_succ_cons, List.drop_zero, Nat.add_comm 1] at h hle ⊢
  rw [digitCount_of_append (b := b) (by omega)]
  rw [List.drop_append_of_le_length (by omega)] at h hle
  rw [exponentLength_of_append (b := b) (by rw [List.length_drop]; omega)]
  exact floatPiece_of_append (a := c :: a) h hn

theorem wordPiece_of_append (h : wordPiece (a ++ b) = (what, n)) (hn : n ≤ a.length) :
    wordPiece a = (what, n) := by
  unfold wordPiece at h ⊢
  rw [takeWhile_of_append (b := b) continuesName (by cases h; exact hn)]
  exact h

theorem markPiece_of_append (h : markPiece c (a ++ b) = (what, n)) (hn : n ≤ 1 + a.length) :
    markPiece c a = (what, n) := by
  cases a with
  | nil =>
    unfold markPiece at h ⊢
    split at h
    · cases h
      simp at hn
    · exact h
  | cons x rest => exact h

/-- A piece that is one character long is one whatever stands behind it. -/
theorem piece_of_le_one (h : piece c b = (what, n)) (hn : n ≤ 1) (hwhat : what ≠ .fault) :
    piece c [] = (what, n) := by
  unfold piece at h ⊢
  split at h
  · next hblank =>
    cases h
    rw [if_pos hblank, takeWhile_of_append (a := []) (b := b) isBlank
      (by rw [List.nil_append, List.length_nil]; omega)]
    rfl
  · next hblank =>
    rw [if_neg hblank]
    simp only [List.head?_nil, Option.map_none, Option.getD_none, Bool.and_false,
      Bool.false_eq_true, ↓reduceIte, Option.none_beq_some]
    split at h
    · next hslash =>
      obtain ⟨rest, rfl⟩ := List.head?_eq_some_iff.mp (eq_of_beq (Bool.and_eq_true_iff.mp hslash).2)
      cases h
      rw [List.takeWhile_cons_of_pos (by decide), List.length_cons] at hn
      omega
    · split at h
      · split at h
        · cases h
          omega
        · cases h
          exact absurd rfl hwhat
      · split at h
        · next hdigit =>
          rw [if_pos hdigit]
          exact numberPiece_of_append (a := [c]) h hn
        · next hdigit =>
          rw [if_neg hdigit]
          split at h
          · next hpoint =>
            have hle := le_of_floatPiece h
            cases b with
            | nil => simp at hpoint
            | cons x rest =>
              have hx : x.isDigit = true := by simpa using (Bool.and_eq_true_iff.mp hpoint).2
              simp [digitCount, hx] at hle
              omega
          · split at h
            · next hword =>
              rw [if_pos hword]
              exact wordPiece_of_append (a := [c]) h hn
            · next hword =>
              rw [if_neg hword]
              exact markPiece_of_append (a := []) h hn

/-- What a piece is depends on its own characters alone. -/
theorem piece_of_append (h : piece c (a ++ b) = (what, n)) (hn : n ≤ 1 + a.length)
    (hwhat : what ≠ .fault) : piece c a = (what, n) := by
  cases a with
  | nil => exact piece_of_le_one h (by simpa using hn) hwhat
  | cons x rest =>
    have hhead : (x :: rest ++ b).head? = (x :: rest).head? := rfl
    unfold piece at h ⊢
    rw [hhead] at h
    split at h
    · next hblank =>
      cases h
      rw [if_pos hblank, takeWhile_of_append (a := x :: rest) (b := b) isBlank (by omega)]
    · next hblank =>
      rw [if_neg hblank]
      split at h
      · next hslash =>
        cases h
        rw [if_pos hslash, takeWhile_of_append (a := x :: rest) (b := b) _ (by omega)]
      · next hslash =>
        rw [if_neg hslash]
        split at h
        · next hblock =>
          rw [if_pos hblock]
          split at h
          · next length hlength =>
            cases h
            have hrest : commentEnd? ((x :: rest).drop 1) = some length :=
              commentEnd?_of_append (a := rest) (b := b) hlength (by simp at hn; omega)
            rw [hrest]
          · cases h
            exact absurd rfl hwhat
        · next hblock =>
          rw [if_neg hblock]
          split at h
          · next hdigit =>
            rw [if_pos hdigit]
            exact numberPiece_of_append (a := c :: x :: rest) h (by simp at hn ⊢; omega)
          · next hdigit =>
            rw [if_neg hdigit]
            split at h
            · next hpoint =>
              rw [if_pos hpoint]
              exact fractionPiece_of_append (a := x :: rest) h (by omega)
            · next hpoint =>
              rw [if_neg hpoint]
              split at h
              · next hword =>
                rw [if_pos hword]
                exact wordPiece_of_append (a := c :: x :: rest) h (by simp at hn ⊢; omega)
              · next hword =>
                rw [if_neg hword]
                exact markPiece_of_append (a := x :: rest) h hn

/-! ## Rows of tokens -/

variable {offset : Nat} {us ts : List Token} {u : Token}

theorem byteLength_append (x y : List Char) :
    byteLength (x ++ y) = byteLength x + byteLength y := by
  induction x with
  | nil => simp [byteLength]
  | cons d rest ih => simp only [byteLength, List.cons_append, List.foldr_cons] at ih ⊢; omega

theorem byteLength_cons_pos (d : Char) (rest : List Char) : 0 < byteLength (d :: rest) := by
  have := d.utf8Size_pos
  simp only [byteLength, List.foldr_cons]
  omega

/-- The characters of a piece that begins with `c`. -/
def pieceText (c : Char) (rest : List Char) (n : Nat) : List Char :=
  c :: rest.take (n - 1)

theorem pieceText_append (c : Char) (rest : List Char) (n : Nat) :
    pieceText c rest n ++ rest.drop (n - 1) = c :: rest := by
  simp [pieceText]

section

variable {rest : List Char} {kind : Kind} (offset : Nat)

theorem scanFrom_blank (h : piece c rest = (.blank, n)) :
    scanFrom offset (c :: rest) =
      scanFrom (offset + byteLength (pieceText c rest n)) (rest.drop (n - 1)) := by
  rw [scanFrom, h]
  rfl

theorem scanFrom_token (h : piece c rest = (.token kind, n)) :
    scanFrom offset (c :: rest) =
      .ok ⟨kind, ⟨offset, offset + byteLength (pieceText c rest n)⟩⟩ ::
        scanFrom (offset + byteLength (pieceText c rest n)) (rest.drop (n - 1)) := by
  rw [scanFrom, h]
  rfl

theorem scanFrom_fault (h : piece c rest = (.fault, n)) :
    scanFrom offset (c :: rest) =
      .error ⟨String.ofList (pieceText c rest n),
          ⟨offset, offset + byteLength (pieceText c rest n)⟩⟩ ::
        scanFrom (offset + byteLength (pieceText c rest n)) (rest.drop (n - 1)) := by
  rw [scanFrom, h]
  rfl

theorem exists_scanFrom_fault (h : piece c rest = (.fault, n)) :
    ∃ fault, scanFrom offset (c :: rest) = .error fault ::
      scanFrom (offset + byteLength (pieceText c rest n)) (rest.drop (n - 1)) :=
  ⟨_, scanFrom_fault offset h⟩

end

/-- Induction on a text, piece by piece. -/
theorem scan_induction {motive : Nat → List Char → Prop} (nil : ∀ offset, motive offset [])
    (blank : ∀ offset c rest n, piece c rest = (.blank, n) →
      motive (offset + byteLength (pieceText c rest n)) (rest.drop (n - 1)) →
      motive offset (c :: rest))
    (token : ∀ offset c rest n kind, piece c rest = (.token kind, n) →
      motive (offset + byteLength (pieceText c rest n)) (rest.drop (n - 1)) →
      motive offset (c :: rest))
    (fault : ∀ offset c rest n, piece c rest = (.fault, n) →
      motive (offset + byteLength (pieceText c rest n)) (rest.drop (n - 1)) →
      motive offset (c :: rest))
    (offset : Nat) (text : List Char) : motive offset text :=
  scanFrom.induct motive nil (fun offset c rest n => blank offset c rest n)
    (fun offset c rest n kind => token offset c rest n kind)
    (fun offset c rest n => fault offset c rest n) offset text

/-- Scanned tokens stand one behind the other, from the offset of the text on. -/
theorem inOrder_of_scanFrom (h : scanFrom offset text = ts.map .ok) :
    InOrder ts ∧ ∀ t ∈ ts, offset ≤ t.span.start := by
  induction offset, text using scan_induction generalizing ts with
  | nil offset =>
    rw [scanFrom] at h
    obtain rfl : ts = [] := List.map_eq_nil_iff.mp h.symm
    exact ⟨⟨.nil, by simp⟩, by simp⟩
  | blank offset c rest n hpiece ih =>
    rw [scanFrom_blank offset hpiece] at h
    obtain ⟨horder, hstart⟩ := ih h
    exact ⟨horder, fun t ht => Nat.le_trans (Nat.le_add_right _ _) (hstart t ht)⟩
  | token offset c rest n kind hpiece ih =>
    rw [scanFrom_token offset hpiece] at h
    cases ts with
    | nil => cases h
    | cons t ts =>
      obtain ⟨ht, hts⟩ := List.cons.inj h
      cases ht
      obtain ⟨horder, hstart⟩ := ih hts
      have hpos := byteLength_cons_pos c (rest.take (n - 1))
      refine ⟨⟨List.pairwise_cons.mpr ⟨hstart, horder.1⟩, ?_⟩, ?_⟩
      · exact List.forall_mem_cons.mpr ⟨Nat.lt_add_of_pos_right hpos, horder.2⟩
      · exact List.forall_mem_cons.mpr
          ⟨Nat.le_refl _, fun u hu => Nat.le_trans (Nat.le_add_right _ _) (hstart u hu)⟩
  | fault offset c rest n hpiece _ =>
    obtain ⟨fault, hfault⟩ := exists_scanFrom_fault offset hpiece
    rw [hfault] at h
    cases ts <;> cases h

/-- The offset at which a row of tokens stops that begins after another offset. -/
def stopAfter (offset : Nat) (ts : List Token) : Nat :=
  ts.foldl (fun _ t => t.span.stop) offset

theorem extent_start (h : InOrder (u :: us)) : (extent (u :: us)).start = u.span.start := by
  by_cases hus : us = []
  · rw [hus, extent]
  · have hle := h.extent_le_tail hus
    have hu := h.nonempty u List.mem_cons_self
    rw [extent_cons u hus, Span.merge]
    simp only at hle ⊢
    omega

theorem extent_stop (h : InOrder us) (hne : us ≠ []) (offset : Nat) :
    (extent us).stop = stopAfter offset us := by
  induction us generalizing offset with
  | nil => exact absurd rfl hne
  | cons u rest ih =>
    by_cases hrest : rest = []
    · rw [hrest, extent]
      rfl
    · have hright : InOrder rest := h.tail
      have hle := h.extent_le_tail hrest
      have hlt := hright.extent_nonempty hrest
      have hstop := ih hright hrest u.span.stop
      rw [extent_cons u hrest, Span.merge]
      simp only [stopAfter, List.foldl_cons] at hle hstop ⊢
      omega

/-- In front of a token the text can be cut off. -/
theorem exists_behind (pre post : List Token)
    (h : scanFrom offset text = pre.map .ok ++ .ok u :: post.map .ok) :
    ∃ x y, text = x ++ y ∧ offset + byteLength x = u.span.start ∧
      scanFrom u.span.start y = .ok u :: post.map .ok := by
  induction offset, text using scan_induction generalizing pre with
  | nil => simp [scanFrom] at h
  | blank offset c rest n hpiece ih =>
    rw [scanFrom_blank offset hpiece] at h
    obtain ⟨x, y, hxy, hx, hy⟩ := ih pre h
    refine ⟨pieceText c rest n ++ x, y, ?_, ?_, hy⟩
    · rw [List.append_assoc, ← hxy, pieceText_append]
    · rw [byteLength_append, ← hx, Nat.add_assoc]
  | token offset c rest n kind hpiece ih =>
    cases pre with
    | nil =>
      have htoken := h
      rw [scanFrom_token offset hpiece] at htoken
      obtain ⟨hu, -⟩ := List.cons.inj htoken
      cases hu
      exact ⟨[], c :: rest, rfl, rfl, h⟩
    | cons t pre =>
      rw [scanFrom_token offset hpiece] at h
      obtain ⟨x, y, hxy, hx, hy⟩ := ih pre (List.cons.inj h).2
      refine ⟨pieceText c rest n ++ x, y, ?_, ?_, hy⟩
      · rw [List.append_assoc, ← hxy, pieceText_append]
      · rw [byteLength_append, ← hx, Nat.add_assoc]
  | fault offset c rest n hpiece _ =>
    obtain ⟨fault, hfault⟩ := exists_scanFrom_fault offset hpiece
    rw [hfault] at h
    cases pre <;> cases h

/-- A piece is the same when the text behind it is cut off somewhere. -/
theorem piece_cut {rest x y : List Char} (hpiece : piece c rest = (what, n)) (hwhat : what ≠ .fault)
    (hxy : rest.drop (n - 1) = x ++ y) :
    piece c (rest.take (n - 1) ++ x) = (what, n) ∧
      (rest.take (n - 1) ++ x).take (n - 1) = rest.take (n - 1) ∧
      (rest.take (n - 1) ++ x).drop (n - 1) = x := by
  have hrest : rest = rest.take (n - 1) ++ x ++ y := by
    rw [List.append_assoc, ← hxy, List.take_append_drop]
  by_cases hle : n - 1 ≤ rest.length
  · have hlength : (rest.take (n - 1)).length = n - 1 := List.length_take_of_le hle
    refine ⟨piece_of_append (b := y) (hrest ▸ hpiece) ?_ hwhat, ?_, ?_⟩
    · rw [List.length_append, hlength]
      omega
    · rw [List.take_append_of_le_length (by omega), List.take_of_length_le (by omega)]
    · rw [List.drop_append_of_le_length (by omega), List.drop_of_length_le (by omega),
        List.nil_append]
  · rw [List.drop_of_length_le (by omega)] at hxy
    obtain ⟨rfl, rfl⟩ := List.nil_eq_append_iff.mp hxy
    rw [List.take_of_length_le (by omega), List.append_nil]
    exact ⟨hpiece, List.take_of_length_le (by omega), List.drop_of_length_le (by omega)⟩

/-- Behind a token the text can be cut off. -/
theorem exists_before (us post : List Token)
    (h : scanFrom offset text = us.map .ok ++ post.map .ok) :
    ∃ x y, text = x ++ y ∧ scanFrom offset x = us.map .ok ∧
      offset + byteLength x = stopAfter offset us := by
  induction offset, text using scan_induction generalizing us with
  | nil offset =>
    rw [scanFrom] at h
    obtain ⟨hus, -⟩ := List.nil_eq_append_iff.mp h
    obtain rfl := List.map_eq_nil_iff.mp hus
    exact ⟨[], [], rfl, by rw [scanFrom, List.map_nil], rfl⟩
  | blank offset c rest n hpiece ih =>
    cases us with
    | nil => exact ⟨[], _, rfl, by rw [scanFrom, List.map_nil], rfl⟩
    | cons u us =>
      rw [scanFrom_blank offset hpiece] at h
      obtain ⟨x, y, hxy, hx, hstop⟩ := ih (u :: us) h
      obtain ⟨hcut, htake, hdrop⟩ := piece_cut hpiece (by simp) hxy
      refine ⟨pieceText c rest n ++ x, y, ?_, ?_, ?_⟩
      · rw [List.append_assoc, ← hxy, pieceText_append]
      · rw [pieceText, List.cons_append, scanFrom_blank offset hcut, pieceText, htake, hdrop]
        exact hx
      · rw [byteLength_append, ← Nat.add_assoc]
        exact hstop
  | token offset c rest n kind hpiece ih =>
    cases us with
    | nil => exact ⟨[], _, rfl, by rw [scanFrom, List.map_nil], rfl⟩
    | cons u us =>
      rw [scanFrom_token offset hpiece] at h
      obtain ⟨hu, hus⟩ := List.cons.inj h
      cases hu
      obtain ⟨x, y, hxy, hx, hstop⟩ := ih us hus
      obtain ⟨hcut, htake, hdrop⟩ := piece_cut hpiece (by simp) hxy
      refine ⟨pieceText c rest n ++ x, y, ?_, ?_, ?_⟩
      · rw [List.append_assoc, ← hxy, pieceText_append]
      · rw [pieceText, List.cons_append, scanFrom_token offset hcut, pieceText, htake, hdrop]
        exact congrArg _ hx
      · rw [byteLength_append, ← Nat.add_assoc]
        exact hstop
  | fault offset c rest n hpiece _ =>
    cases us with
    | nil => exact ⟨[], _, rfl, by rw [scanFrom, List.map_nil], rfl⟩
    | cons u us =>
      obtain ⟨fault, hfault⟩ := exists_scanFrom_fault offset hpiece
      rw [hfault] at h
      cases h

/-- Spans are counted from where the text begins. -/
theorem scanFrom_back {origin : Nat} (h : scanFrom (origin + offset) text = ts.map .ok) :
    scanFrom offset text = (ts.map (·.mapSpan (Span.back origin))).map .ok := by
  induction offset, text using scan_induction generalizing ts with
  | nil offset =>
    rw [scanFrom] at h ⊢
    obtain rfl := List.map_eq_nil_iff.mp h.symm
    rfl
  | blank offset c rest n hpiece ih =>
    rw [scanFrom_blank _ hpiece, Nat.add_assoc] at h
    rw [scanFrom_blank _ hpiece]
    exact ih h
  | token offset c rest n kind hpiece ih =>
    rw [scanFrom_token _ hpiece, Nat.add_assoc] at h
    rw [scanFrom_token _ hpiece]
    cases ts with
    | nil => cases h
    | cons t ts =>
      obtain ⟨ht, hts⟩ := List.cons.inj h
      cases ht
      rw [ih hts]
      simp [Token.mapSpan, Span.back]
  | fault offset c rest n hpiece _ =>
    obtain ⟨fault, hfault⟩ := exists_scanFrom_fault (origin + offset) hpiece
    rw [hfault] at h
    cases ts <;> cases h

theorem floatPiece_isEnd {length : Nat} {kind : Kind}
    (h : floatPiece text length = (.token kind, n)) : kind.isEnd = false := by
  unfold floatPiece at h
  split at h <;> cases h
  rfl

theorem piece_isEnd {rest : List Char} {kind : Kind} (h : piece c rest = (.token kind, n)) :
    kind.isEnd = false := by
  unfold piece numberPiece fractionPiece wordPiece markPiece at h
  grind [floatPiece_isEnd, Kind.isEnd]

/-- Nothing that is scanned is the end of the text. -/
theorem isEnd_of_mem_scanFrom {t : Token} (h : .ok t ∈ scanFrom offset text) :
    t.kind.isEnd = false := by
  induction offset, text using scan_induction with
  | nil offset => simp [scanFrom] at h
  | blank offset c rest n hpiece ih =>
    rw [scanFrom_blank _ hpiece] at h
    exact ih h
  | token offset c rest n kind hpiece ih =>
    rw [scanFrom_token _ hpiece] at h
    rcases List.mem_cons.mp h with h | h
    · cases h
      exact piece_isEnd hpiece
    · exact ih h
  | fault offset c rest n hpiece ih =>
    obtain ⟨fault, hfault⟩ := exists_scanFrom_fault offset hpiece
    rw [hfault] at h
    rcases List.mem_cons.mp h with h | h
    · cases h
    · exact ih h

end Token.Scan

/-! ## Slices -/

/-- The text between two offsets of another one. -/
def Span.Delimits (s : Span) (source slice : String) : Prop :=
  ∃ before behind, source = before ++ slice ++ behind ∧ before.utf8ByteSize = s.start ∧
    (before ++ slice).utf8ByteSize = s.stop

theorem Token.Scan.utf8ByteSize_ofList (text : List Char) :
    (String.ofList text).utf8ByteSize = byteLength text := by
  induction text with
  | nil => rfl
  | cons c rest ih =>
    rw [String.ofList_cons, String.utf8ByteSize_append, String.utf8ByteSize_singleton, ih]
    rfl

theorem Token.Scan.byteLength_toList (s : String) : byteLength s.toList = s.utf8ByteSize := by
  rw [← utf8ByteSize_ofList, String.ofList_toList]

theorem Token.Scan.append_inj_of_byteLength {x x' y y' : List Char} (h : x ++ y = x' ++ y')
    (hx : byteLength x = byteLength x') : x = x' ∧ y = y' := by
  induction x generalizing x' with
  | nil =>
    cases x' with
    | nil => exact ⟨rfl, h⟩
    | cons c rest =>
      have := byteLength_cons_pos c rest
      rw [← hx] at this
      cases this
  | cons c rest ih =>
    cases x' with
    | nil =>
      have := byteLength_cons_pos c rest
      rw [hx] at this
      cases this
    | cons d rest' =>
      obtain ⟨rfl, hrest⟩ := List.cons.inj h
      simp only [byteLength, List.foldr_cons] at hx
      obtain ⟨rfl, hy⟩ := ih hrest (Nat.add_left_cancel hx)
      exact ⟨rfl, hy⟩

/-- A span delimits one slice of a text at most. -/
theorem Span.Delimits.unique {s : Span} {source slice slice' : String}
    (h : s.Delimits source slice) (h' : s.Delimits source slice') : slice = slice' := by
  obtain ⟨x, y, rfl, hstart, hstop⟩ := h
  obtain ⟨x', y', hsource, hstart', hstop'⟩ := h'
  rw [← hstart'] at hstart
  rw [← hstop'] at hstop
  have htext := congrArg String.toList hsource
  simp only [String.toList_append, List.append_assoc] at htext
  simp only [← Token.Scan.byteLength_toList, String.toList_append, Token.Scan.byteLength_append]
    at hstart hstop
  obtain ⟨-, hrest⟩ := Token.Scan.append_inj_of_byteLength htext hstart
  obtain ⟨hslice, -⟩ := Token.Scan.append_inj_of_byteLength hrest (by omega)
  exact String.toList_inj.mp hslice

/-- The tokens of a slice are those of the text, with their spans counted from where the slice
begins. -/
theorem Token.Scan.exists_slice {source : String} {ts us : List Token}
    (h : scanFrom 0 source.toList = ts.map .ok) (hus : us <:+: ts) (hne : us ≠ []) :
    ∃ slice : String, (extent us).Delimits source slice ∧
      scanFrom 0 slice.toList = (us.map (·.mapSpan (Span.back (extent us).start))).map .ok := by
  have horder : InOrder us := (inOrder_of_scanFrom h).1.within hus
  obtain ⟨pre, post, rfl⟩ := hus
  obtain ⟨u, rest, rfl⟩ := List.exists_cons_of_ne_nil hne
  obtain ⟨x, w, hxw, hstart, hw⟩ := exists_behind (u := u) pre (rest ++ post)
    (by simpa using h)
  obtain ⟨y, z, rfl, hy, hstop⟩ := exists_before (u :: rest) post (by simpa using hw)
  rw [← extent_start horder] at hy hstart hstop
  refine ⟨String.ofList y, ⟨String.ofList x, String.ofList z, ?_, ?_, ?_⟩, ?_⟩
  · rw [← String.ofList_append, ← String.ofList_append, List.append_assoc, ← hxw,
      String.ofList_toList]
  · rw [utf8ByteSize_ofList]
    omega
  · rw [← String.ofList_append, utf8ByteSize_ofList, byteLength_append,
      extent_stop horder (by simp) _, ← hstop]
    omega
  · rw [String.toList_ofList]
    exact scanFrom_back hy

end ShaderLang
