import ShaderLang.Proofs.Ledger
import ShaderLang.Proofs.LocalNames

/-!
# Reading back what was written

The parts of a line can be read back off it: types, operands, and lists of them. A part is *legible*
if texts that begin with it agree only if the parts do and what stands behind them does (`Legible`).
Words are, as a word goes on to the next character that ends one; a type and a vector say themselves
where they end. Which kind of operand it is shows in the first character, but for numbers: a
floating-point number has a character that no integer has.
-/

namespace ShaderLang

namespace Ir

/-! ## Cutting -/

/-- Lists without a stop that are continued by stops have the same beginning and the same end. -/
theorem cut_of_stops {α : Type} {stop : α → Bool} {a b r s : List α} (ha : ∀ x ∈ a, stop x = false)
    (hb : ∀ x ∈ b, stop x = false) (hr : ∀ x ∈ r.head?, stop x = true)
    (hs : ∀ x ∈ s.head?, stop x = true) (h : a ++ r = b ++ s) : a = b ∧ r = s := by
  induction a generalizing b with
  | nil =>
    cases b with
    | nil => exact ⟨rfl, h⟩
    | cons y b =>
      have hstop := hr y (by simp [show r = y :: (b ++ s) from h])
      rw [hb y List.mem_cons_self] at hstop
      cases hstop
  | cons x a ih =>
    cases b with
    | nil =>
      have hstop := hs x (by simp [show s = x :: (a ++ r) from h.symm])
      rw [ha x List.mem_cons_self] at hstop
      cases hstop
    | cons y b =>
      obtain ⟨rfl, hrest⟩ := List.cons.inj h
      obtain ⟨rfl, rfl⟩ := ih (fun z hz => ha z (List.mem_cons_of_mem _ hz))
        (fun z hz => hb z (List.mem_cons_of_mem _ hz)) hrest
      exact ⟨rfl, rfl⟩

/-- Whether a character ends a word. -/
def endsWord (c : Char) : Bool :=
  [' ', ',', ':', '(', ')', ']', '>', '\n'].contains c

/-- A text without a character that ends a word. -/
def IsWord (t : List Char) : Prop :=
  ∀ c ∈ t, endsWord c = false

instance (t : List Char) : Decidable (IsWord t) :=
  List.decidableBAll (fun c => endsWord c = false) t

/-- A text that may stand behind a word. -/
def Ended (t : List Char) : Prop :=
  ∀ c ∈ t.head?, endsWord c = true

theorem Ended.nil : Ended [] :=
  nofun

theorem Ended.cons {c : Char} (h : endsWord c = true) (t : List Char) : Ended (c :: t) := by
  rintro _ ⟨⟩
  exact h

theorem IsWord.append {s t : List Char} (hs : IsWord s) (ht : IsWord t) : IsWord (s ++ t) := by
  intro c hc
  rcases List.mem_append.mp hc with hc | hc
  · exact hs c hc
  · exact ht c hc

theorem IsWord.cut {a b r s : List Char} (ha : IsWord a) (hb : IsWord b) (hr : Ended r) (hs : Ended s)
    (h : a ++ r = b ++ s) : a = b ∧ r = s :=
  cut_of_stops ha hb hr hs h

/-- A word begins with a character that does not end words. -/
theorem IsWord.exists_head {t : List Char} (h : IsWord t) (hne : t ≠ []) {close : Char}
    (hclose : endsWord close = true) : ∃ c rest, t = c :: rest ∧ c ≠ close := by
  cases t with
  | nil => exact absurd rfl hne
  | cons c rest =>
    refine ⟨c, rest, rfl, ?_⟩
    rintro rfl
    rw [h c List.mem_cons_self] at hclose
    cases hclose

/-- What has been written can be read back, if a word ends behind it. -/
def Legible {α : Type} (P : α → Prop) (text : α → String) : Prop :=
  ∀ a b r s, P a → P b → Ended r → Ended s →
    (text a).toList ++ r = (text b).toList ++ s → a = b ∧ r = s

theorem Legible.of_words {α : Type} {P : α → Prop} {text : α → String}
    (hword : ∀ a, P a → IsWord (text a).toList)
    (hinj : ∀ a b, P a → P b → text a = text b → a = b) : Legible P text := by
  intro a b r s ha hb hr hs h
  obtain ⟨htext, rfl⟩ := (hword a ha).cut (hword b hb) hr hs h
  exact ⟨hinj a b ha hb (String.toList_inj.mp htext), rfl⟩

/-! ## Words -/

theorem endsWord_of_isDigit {c : Char} (h : c.isDigit = true) : endsWord c = false := by
  by_contra hne
  simp only [Bool.not_eq_false, endsWord, List.contains_iff_mem, List.mem_cons, List.not_mem_nil,
    or_false] at hne
  rcases hne with rfl | rfl | rfl | rfl | rfl | rfl | rfl | rfl <;> exact absurd h (by decide)

theorem isWord_of_isName {name : String} (h : Token.IsName name) : IsWord name.toList := by
  intro c hc
  have hcontinues := h.continues c hc
  by_contra hne
  simp only [Bool.not_eq_false, endsWord, List.contains_iff_mem, List.mem_cons, List.not_mem_nil,
    or_false] at hne
  rcases hne with rfl | rfl | rfl | rfl | rfl | rfl | rfl | rfl <;> exact absurd hcontinues (by decide)

theorem isDigit_of_mem_toString {n : Nat} {c : Char} (hc : c ∈ (toString n).toList) :
    c.isDigit = true := by
  have hdigits : c ∈ Nat.toDigits 10 n := by simpa using hc
  exact Nat.isDigit_of_mem_toDigits (by decide) (by decide) hdigits

theorem isWord_nat (n : Nat) : IsWord (toString n).toList :=
  fun _ hc => endsWord_of_isDigit (isDigit_of_mem_toString hc)

theorem legible_nat : Legible (fun _ : Nat => True) toString :=
  .of_words (fun n _ => isWord_nat n) fun _ _ _ _ h => toString_nat_inj h

theorem toString_nat_ne_nil (n : Nat) : (toString n).toList ≠ [] := by
  simp [Nat.toDigits_ne_nil]

/-- What the text of an integer consists of. -/
def isIntegerChar (c : Char) : Bool :=
  c.isDigit || c == '-'

theorem toList_negSucc (n : Nat) :
    (toString (Int.negSucc n)).toList = '-' :: (toString (n + 1)).toList := by
  change ("-" ++ toString (n + 1)).toList = _
  rw [String.toList_append]
  rfl

theorem isIntegerChar_of_mem_toString {n : Int} {c : Char} (hc : c ∈ (toString n).toList) :
    isIntegerChar c = true := by
  cases n with
  | ofNat n => simp [isIntegerChar, isDigit_of_mem_toString hc]
  | negSucc n =>
    rw [toList_negSucc, List.mem_cons] at hc
    rcases hc with rfl | hc
    · rfl
    · simp [isIntegerChar, isDigit_of_mem_toString hc]

theorem toString_int_ne_nil (n : Int) : (toString n).toList ≠ [] := by
  cases n with
  | ofNat n => exact toString_nat_ne_nil n
  | negSucc n =>
    rw [toList_negSucc]
    exact List.cons_ne_nil _ _

theorem endsWord_of_isIntegerChar {c : Char} (h : isIntegerChar c = true) : endsWord c = false := by
  rcases Bool.or_eq_true_iff.mp h with h | h
  · exact endsWord_of_isDigit h
  · rw [beq_iff_eq.mp h]
    rfl

theorem toString_int_inj {n m : Int} (h : toString n = toString m) : n = m := by
  have hminus : ∀ k : Nat, '-' ∉ (toString k).toList := fun k hk =>
    absurd (isDigit_of_mem_toString hk) (by decide)
  have hlist := congrArg String.toList h
  cases n with
  | ofNat n =>
    cases m with
    | ofNat m => rw [toString_nat_inj (h : toString n = toString m)]
    | negSucc m =>
      rw [toList_negSucc] at hlist
      exact absurd (hlist ▸ List.mem_cons_self) (hminus n)
  | negSucc n =>
    cases m with
    | ofNat m =>
      rw [toList_negSucc] at hlist
      exact absurd (hlist ▸ List.mem_cons_self) (hminus m)
    | negSucc m =>
      rw [toList_negSucc, toList_negSucc, List.cons_inj_right, String.toList_inj] at hlist
      rw [Nat.succ.inj (toString_nat_inj hlist)]

end Ir

/-! ## Floating-point numbers -/

namespace Decimal

theorem isDigit_of_mem_ofNat {n : Nat} {exponent : Int} :
    ∀ c ∈ (Digits.ofNat n exponent).digits, c.isDigit = true := by
  intro c hc
  have hmem : c ∈ Nat.toDigits 10 n :=
    List.mem_reverse.mp ((List.dropWhile_suffix _).mem (List.mem_reverse.mp hc))
  exact Nat.isDigit_of_mem_toDigits (by decide) (by decide) hmem

theorem isDigit_of_mem_shortestFrom (b : Binary) (dropped : Nat) :
    ∀ c ∈ (b.shortestFrom dropped).digits, c.isDigit = true := by
  induction dropped with
  | zero => exact isDigit_of_mem_ofNat
  | succ dropped ih =>
    rw [Binary.shortestFrom]
    split
    · split <;> exact isDigit_of_mem_ofNat
    · split
      · exact isDigit_of_mem_ofNat
      · exact ih

/-- What the text of a floating-point number consists of. -/
def isFloatChar (c : Char) : Bool :=
  c.isDigit || ['.', '-', 'e', 'i', 'n', 'f', 'N', 'a'].contains c

/-- A text of such characters that no integer has. -/
structure IsFloatText (t : List Char) : Prop where
  chars : ∀ c ∈ t, isFloatChar c = true
  mark : ∃ c ∈ t, Ir.isIntegerChar c = false

instance (t : List Char) : Decidable (IsFloatText t) :=
  decidable_of_iff (t.all isFloatChar = true ∧ t.all Ir.isIntegerChar = false)
    ⟨fun h => ⟨List.all_eq_true.mp h.1, by simpa using h.2⟩,
      fun h => ⟨List.all_eq_true.mpr h.chars, by simpa using h.mark⟩⟩

theorem isFloatChar_of_isIntegerChar {c : Char} (h : Ir.isIntegerChar c = true) :
    isFloatChar c = true := by
  rcases Bool.or_eq_true_iff.mp h with h | h
  · simp [isFloatChar, h]
  · rw [beq_iff_eq.mp h]
    rfl

theorem endsWord_of_isFloatChar {c : Char} (h : isFloatChar c = true) : Ir.endsWord c = false := by
  rcases Bool.or_eq_true_iff.mp h with h | h
  · exact Ir.endsWord_of_isDigit h
  · simp only [List.contains_iff_mem, List.mem_cons, List.not_mem_nil, or_false] at h
    rcases h with rfl | rfl | rfl | rfl | rfl | rfl | rfl | rfl <;> rfl

namespace IsFloatText

variable {s t : List Char}

theorem append_left (hs : ∀ c ∈ s, isFloatChar c = true) (ht : IsFloatText t) :
    IsFloatText (s ++ t) where
  chars := List.forall_mem_append.mpr ⟨hs, ht.chars⟩
  mark :=
    let ⟨c, hc, hmark⟩ := ht.mark
    ⟨c, List.mem_append_right _ hc, hmark⟩

theorem append_right (hs : IsFloatText s) (ht : ∀ c ∈ t, isFloatChar c = true) :
    IsFloatText (s ++ t) where
  chars := List.forall_mem_append.mpr ⟨hs.chars, ht⟩
  mark :=
    let ⟨c, hc, hmark⟩ := hs.mark
    ⟨c, List.mem_append_left _ hc, hmark⟩

end IsFloatText

theorem isFloatChar_of_isDigit {digits : List Char} (h : ∀ c ∈ digits, c.isDigit = true) :
    ∀ c ∈ digits, isFloatChar c = true := by
  intro c hc
  simp [isFloatChar, h c hc]

namespace Layout

theorem isFloatText_fraction {digits : List Char} (h : ∀ c ∈ digits, c.isDigit = true) :
    IsFloatText (fraction ".0" digits).toList := by
  unfold fraction
  split
  · decide
  · rw [String.toList_append, String.toList_ofList (l := digits)]
    exact .append_right (by decide) (isFloatChar_of_isDigit h)

theorem isFloatText_set {d : Digits} (h : ∀ c ∈ d.digits, c.isDigit = true) :
    IsFloatText (scientific.set d).toList := by
  have htake : ∀ n, ∀ c ∈ d.digits.take n, c.isDigit = true :=
    fun n c hc => h c (List.mem_of_mem_take hc)
  have hdrop : ∀ n, ∀ c ∈ d.digits.drop n, c.isDigit = true :=
    fun n c hc => h c (List.mem_of_mem_drop hc)
  have hzeros : ∀ n, ∀ c ∈ List.replicate n '0', c.isDigit = true := by
    intro n c hc
    rw [List.eq_of_mem_replicate hc]
    rfl
  unfold set
  split
  · split
    · rw [String.toList_append]
      exact .append_left (List.all_eq_true.mp (by decide))
        (isFloatText_fraction (List.forall_mem_append.mpr ⟨hzeros _, h⟩))
    · rw [String.toList_append, String.toList_ofList]
      refine .append_left (isFloatChar_of_isDigit ?_) (isFloatText_fraction (hdrop _))
      exact List.forall_mem_append.mpr ⟨htake _, hzeros _⟩
  · -- The exponent is an integer; the letter before it is what no integer has.
    have hfraction : ∀ c ∈ (fraction "" (d.digits.drop 1)).toList, isFloatChar c = true := by
      unfold fraction
      split
      · simp
      · rw [String.toList_append, String.toList_ofList (l := d.digits.drop 1)]
        exact List.forall_mem_append.mpr
          ⟨List.all_eq_true.mp (by decide), isFloatChar_of_isDigit (hdrop 1)⟩
    rw [String.toList_append, String.toList_append, String.toList_append, String.toList_ofList]
    refine .append_right (.append_left ?_ (by decide)) fun c hc => ?_
    · exact List.forall_mem_append.mpr ⟨isFloatChar_of_isDigit (htake 1), hfraction⟩
    · exact isFloatChar_of_isIntegerChar (Ir.isIntegerChar_of_mem_toString hc)

theorem isFloatText_signed {text : String} (h : IsFloatText text.toList) (negative : Bool) :
    IsFloatText (signed negative text).toList := by
  unfold signed
  split
  · rw [String.toList_append]
    exact .append_left (List.all_eq_true.mp (by decide)) h
  · exact h

theorem isFloatText_write (x : Float) : IsFloatText (scientific.write x).toList := by
  unfold write
  split
  · decide
  · exact isFloatText_signed (by decide) _
  · exact isFloatText_signed (by decide) _
  · exact isFloatText_signed (isFloatText_set (isDigit_of_mem_shortestFrom _ _)) _

end Layout

end Decimal

namespace Ir

/-! ## Lists -/

theorem toList_commaText_cons (t : String) (ts : List String) :
    (commaText (t :: ts)).toList = t.toList ++ ts.flatMap fun u => ',' :: ' ' :: u.toList := by
  induction ts generalizing t with
  | nil => simp [commaText]
  | cons u ts ih =>
    have hsplit : commaText (t :: u :: ts) = t ++ ", " ++ commaText (u :: ts) :=
      String.intercalate_cons_cons
    rw [hsplit, String.toList_append, String.toList_append, ih]
    simp

section

variable {α : Type} {P : α → Prop} {text : α → String} {close : Char} {r s : List Char}

/-- Behind an element a list goes on with a comma, or it is closed. -/
theorem ended_tail (hclose : endsWord close = true) (l : List α) :
    Ended ((l.flatMap fun a => ',' :: ' ' :: (text a).toList) ++ close :: r) := by
  cases l with
  | nil => exact .cons hclose r
  | cons a l => exact .cons rfl _

theorem tail_legible (h : Legible P text) (hclose : endsWord close = true) (hcomma : close ≠ ',')
    {l l' : List α} (hl : ∀ a ∈ l, P a) (hl' : ∀ a ∈ l', P a)
    (heq : (l.flatMap fun a => ',' :: ' ' :: (text a).toList) ++ close :: r =
      (l'.flatMap fun a => ',' :: ' ' :: (text a).toList) ++ close :: s) : l = l' ∧ r = s := by
  induction l generalizing l' with
  | nil =>
    cases l' with
    | nil => exact ⟨rfl, (List.cons.inj heq).2⟩
    | cons b l' => exact absurd (List.cons.inj heq).1 hcomma
  | cons a l ih =>
    cases l' with
    | nil => exact absurd (List.cons.inj heq).1.symm hcomma
    | cons b l' =>
      simp only [List.flatMap_cons, List.cons_append, List.append_assoc, List.cons.injEq,
        true_and] at heq
      obtain ⟨rfl, hrest⟩ := h a b _ _ (hl a List.mem_cons_self) (hl' b List.mem_cons_self)
        (ended_tail hclose l) (ended_tail hclose l') heq
      obtain ⟨rfl, rfl⟩ := ih (fun x hx => hl x (List.mem_cons_of_mem _ hx))
        (fun x hx => hl' x (List.mem_cons_of_mem _ hx)) hrest
      exact ⟨rfl, rfl⟩

/-- A list can be read back up to the character that closes it, which no element begins with. -/
theorem commaText_legible (h : Legible P text) (hclose : endsWord close = true)
    (hcomma : close ≠ ',') (hhead : ∀ a, P a → ∃ c t, (text a).toList = c :: t ∧ c ≠ close)
    {l l' : List α} (hl : ∀ a ∈ l, P a) (hl' : ∀ a ∈ l', P a)
    (heq : (commaText (l.map text)).toList ++ close :: r =
      (commaText (l'.map text)).toList ++ close :: s) : l = l' ∧ r = s := by
  have hne : ∀ a, P a → ∀ ts t u, (commaText (text a :: ts)).toList ++ t ≠ close :: u := by
    intro a ha ts t u hsame
    obtain ⟨c, rest, hc, hne⟩ := hhead a ha
    rw [toList_commaText_cons, hc] at hsame
    exact hne (List.cons.inj hsame).1
  cases l with
  | nil =>
    cases l' with
    | nil => exact ⟨rfl, (List.cons.inj heq).2⟩
    | cons b l' => exact absurd heq.symm (hne b (hl' b List.mem_cons_self) _ _ _)
  | cons a l =>
    cases l' with
    | nil => exact absurd heq (hne a (hl a List.mem_cons_self) _ _ _)
    | cons b l' =>
      simp only [List.map_cons, toList_commaText_cons, List.flatMap_map, List.append_assoc] at heq
      obtain ⟨rfl, hrest⟩ := h a b _ _ (hl a List.mem_cons_self) (hl' b List.mem_cons_self)
        (ended_tail hclose l) (ended_tail hclose l') heq
      obtain ⟨rfl, rfl⟩ := tail_legible h hclose hcomma (fun x hx => hl x (List.mem_cons_of_mem _ hx))
        (fun x hx => hl' x (List.mem_cons_of_mem _ hx)) hrest
      exact ⟨rfl, rfl⟩

end

/-! ## Types -/

theorem Ty.size_cut {n m : Nat} {r s : List Char}
    (h : (toString n).toList ++ ' ' :: r = (toString m).toList ++ ' ' :: s) : n = m ∧ r = s := by
  obtain ⟨rfl, hrest⟩ := legible_nat n m _ _ trivial trivial (.cons rfl _) (.cons rfl _) h
  exact ⟨rfl, (List.cons.inj hrest).2⟩

/-- A type says itself where it ends. -/
theorem Ty.text_cut {t u : Ty} {r s : List Char} (h : t.text.toList ++ r = u.text.toList ++ s) :
    t = u ∧ r = s := by
  induction t generalizing u r s with
  | void | i1 | i32 | f32 | ptr => cases u <;> simp_all [text]
  | vector element lanes ih =>
    cases u with
    | vector element' lanes' =>
      simp only [text, String.toList_append, String.reduceToList, List.cons_append,
        List.nil_append, List.append_assoc, List.cons.injEq, true_and] at h
      obtain ⟨rfl, hrest⟩ := size_cut h
      obtain ⟨rfl, hend⟩ := ih (List.cons.inj (List.cons.inj hrest).2).2
      exact ⟨rfl, (List.cons.inj hend).2⟩
    | _ => simp [text] at h
  | array element count ih =>
    cases u with
    | array element' count' =>
      simp only [text, String.toList_append, String.reduceToList, List.cons_append,
        List.nil_append, List.append_assoc, List.cons.injEq, true_and] at h
      obtain ⟨rfl, hrest⟩ := size_cut h
      obtain ⟨rfl, hend⟩ := ih (List.cons.inj (List.cons.inj hrest).2).2
      exact ⟨rfl, (List.cons.inj hend).2⟩
    | _ => simp [text] at h

/-! ## Operands -/

theorem isWord_floatText (x : Float) : IsWord (floatText x).toList :=
  fun c hc => Decimal.endsWord_of_isFloatChar ((Decimal.Layout.isFloatText_write x).chars c hc)

theorem floatText_ne_nil (x : Float) : (floatText x).toList ≠ [] := by
  obtain ⟨-, c, hc, -⟩ : Decimal.IsFloatText (floatText x).toList := Decimal.Layout.isFloatText_write x
  exact List.ne_nil_of_mem hc

/-- The texts of these numbers differ. -/
def ToldApart (known : Float → Prop) : Prop :=
  ∀ x y, known x → known y → floatText x = floatText y → x = y

/-- An operand that its text determines, if the numbers in it are told apart. -/
def Value.IsLegible (known : Float → Prop) : Value → Prop
  | param _ | function _ => False
  | global name => Token.IsName name
  | float x => known x
  | vector lanes => ∀ x ∈ lanes, known x
  | _ => True

namespace Value

theorem toList_vector (lanes : List Float) :
    (vector lanes).text.toList = '<' :: ((commaText (lanes.map floatText)).toList ++ ['>']) := by
  rw [text, String.toList_append, String.toList_append]
  rfl

/-- What kind of operand a text is. -/
def formOf (t : List Char) : Nat :=
  if t.head? = some '%' then 0
  else if t.head? = some '@' then 7
  else if t.head? = some '<' then 4
  else if t.all isIntegerChar then 1
  else if t.all Decimal.isFloatChar then 2
  else if t = "undef".toList then 5
  else if ["true".toList, "false".toList].contains t then 3
  else 9

variable {known : Float → Prop}

theorem head?_ne_of_isFloatChar {t : List Char} (h : ∀ c ∈ t, Decimal.isFloatChar c = true) {c : Char}
    (hc : Decimal.isFloatChar c = false) : t.head? ≠ some c := by
  intro hhead
  rw [h c (List.mem_of_mem_head? hhead)] at hc
  cases hc

theorem formOf_text {v : Value} (h : v.IsLegible known) : formOf v.text.toList = v.ctorIdx := by
  cases v with
  | temp t =>
    rw [text, tempText, String.toList_append]
    rfl
  | int n =>
    have hchars : ∀ c ∈ (toString n.toInt).toList, isIntegerChar c = true :=
      fun c hc => isIntegerChar_of_mem_toString hc
    have hhead : ∀ {c}, Decimal.isFloatChar c = false → (toString n.toInt).toList.head? ≠ some c :=
      head?_ne_of_isFloatChar fun c hc => Decimal.isFloatChar_of_isIntegerChar (hchars c hc)
    rw [text, formOf, if_neg (hhead rfl), if_neg (hhead rfl), if_neg (hhead rfl),
      if_pos (List.all_eq_true.mpr hchars)]
    rfl
  | float x =>
    obtain ⟨hchars, c, hc, hmark⟩ : Decimal.IsFloatText (floatText x).toList :=
      Decimal.Layout.isFloatText_write x
    have hhead : ∀ {c}, Decimal.isFloatChar c = false → (floatText x).toList.head? ≠ some c :=
      head?_ne_of_isFloatChar hchars
    have hint : ¬ (floatText x).toList.all isIntegerChar = true := by
      intro hall
      rw [List.all_eq_true.mp hall c hc] at hmark
      cases hmark
    rw [text, formOf, if_neg (hhead rfl), if_neg (hhead rfl), if_neg (hhead rfl), if_neg hint,
      if_pos (List.all_eq_true.mpr hchars)]
    rfl
  | bool b => cases b <;> rfl
  | vector lanes =>
    rw [toList_vector]
    rfl
  | undefined => rfl
  | param name | function name => cases h
  | global name =>
    rw [text, String.toList_append]
    rfl

theorem text_ne_nil (v : Value) : v.text.toList ≠ [] := by
  cases v with
  | int n => exact toString_int_ne_nil n.toInt
  | float x => exact floatText_ne_nil x
  | bool b => cases b <;> exact List.cons_ne_nil _ _
  | undefined => exact List.cons_ne_nil _ _
  | _ => simp [text, tempText]

theorem eq_vector {v : Value} (h : v.ctorIdx = 4) : ∃ lanes, v = vector lanes := by
  cases v with
  | vector lanes => exact ⟨lanes, rfl⟩
  | _ => cases h

/-- Every operand but a vector is a word. -/
theorem isWord_text {v : Value} (h : v.IsLegible known) (hv : v.ctorIdx ≠ 4) :
    IsWord v.text.toList := by
  cases v with
  | temp t =>
    rw [text, tempText, String.toList_append]
    exact .append (by decide) (isWord_nat t)
  | int n => exact fun c hc => endsWord_of_isIntegerChar (isIntegerChar_of_mem_toString hc)
  | float x => exact isWord_floatText x
  | bool b =>
    cases b with
    | false => exact (by decide : IsWord "false".toList)
    | true => exact (by decide : IsWord "true".toList)
  | vector lanes => exact absurd rfl hv
  | undefined => exact (by decide : IsWord "undef".toList)
  | param name | function name => cases h
  | global name =>
    rw [text, String.toList_append]
    exact .append (by decide) (isWord_of_isName h)

theorem text_inj (hknown : ToldApart known) {v w : Value}
    (hv : v.IsLegible known) (hw : w.IsLegible known) (hvector : v.ctorIdx ≠ 4)
    (h : v.text = w.text) : v = w := by
  have hform : v.ctorIdx = w.ctorIdx := by rw [← formOf_text hv, ← formOf_text hw, h]
  cases v with
  | temp t =>
    cases w with
    | temp u => rw [tempText_inj.mp h]
    | _ => cases hform
  | int n =>
    cases w with
    | int m => rw [Int64.toInt_inj.mp (toString_int_inj h)]
    | _ => cases hform
  | float x =>
    cases w with
    | float y => rw [hknown x y hv hw h]
    | _ => cases hform
  | bool b =>
    cases w with
    | bool b' => cases b <;> cases b' <;> first | rfl | exact absurd h (by decide)
    | _ => cases hform
  | vector lanes => exact absurd rfl hvector
  | undefined =>
    cases w with
    | undefined => rfl
    | _ => cases hform
  | param name | function name => cases hv
  | global name =>
    cases w with
    | global name' => rw [show name = name' by simpa [text] using h]
    | _ => cases hform

/-- A vector says itself where it ends. -/
theorem vector_cut (hknown : ToldApart known)
    {lanes lanes' : List Float} (hv : ∀ x ∈ lanes, known x) (hw : ∀ x ∈ lanes', known x)
    {r s : List Char}
    (h : (vector lanes).text.toList ++ r = (vector lanes').text.toList ++ s) :
    vector lanes = vector lanes' ∧ r = s := by
  have hfloat : Legible known floatText := .of_words (fun x _ => isWord_floatText x) hknown
  simp only [toList_vector, List.cons_append, List.append_assoc, List.cons.injEq, true_and] at h
  have hhead : ∀ x, known x → ∃ c t, (floatText x).toList = c :: t ∧ c ≠ '>' :=
    fun x _ => (isWord_floatText x).exists_head (floatText_ne_nil x) rfl
  obtain ⟨rfl, rfl⟩ := commaText_legible hfloat rfl (by decide) hhead hv hw h
  exact ⟨rfl, rfl⟩

/-- No word begins like a vector. -/
theorem text_ne_vector {v : Value} (hv : v.IsLegible known) (hvector : v.ctorIdx ≠ 4)
    {lanes : List Float} {r s : List Char} :
    v.text.toList ++ r ≠ (vector lanes).text.toList ++ s := by
  intro h
  obtain ⟨c, t, hc, -⟩ := (isWord_text hv hvector).exists_head (text_ne_nil v) (rfl : endsWord ')' = true)
  rw [hc, toList_vector] at h
  obtain ⟨rfl, -⟩ := List.cons.inj h
  have hform : formOf v.text.toList = 4 := by rw [hc]; rfl
  rw [formOf_text hv] at hform
  exact hvector hform

theorem legible (hknown : ToldApart known) :
    Legible (IsLegible known) text := by
  intro v w r s hv hw hr hs h
  by_cases hvector : v.ctorIdx = 4
  · obtain ⟨lanes, rfl⟩ := eq_vector hvector
    by_cases hvector' : w.ctorIdx = 4
    · obtain ⟨lanes', rfl⟩ := eq_vector hvector'
      exact vector_cut hknown hv hw h
    · exact absurd h.symm (text_ne_vector hw hvector')
  · by_cases hvector' : w.ctorIdx = 4
    · obtain ⟨lanes', rfl⟩ := eq_vector hvector'
      exact absurd h (text_ne_vector hv hvector)
    · obtain ⟨htext, rfl⟩ := (isWord_text hv hvector).cut (isWord_text hw hvector') hr hs h
      exact ⟨text_inj hknown hv hw hvector (String.toList_inj.mp htext), rfl⟩

theorem exists_head {v : Value} (h : v.IsLegible known) :
    ∃ c t, v.text.toList = c :: t ∧ c ≠ ')' := by
  by_cases hvector : v.ctorIdx = 4
  · obtain ⟨lanes, rfl⟩ := eq_vector hvector
    exact ⟨'<', _, toList_vector lanes, by decide⟩
  · exact (isWord_text h hvector).exists_head (text_ne_nil v) rfl

end Value

end Ir

end ShaderLang
