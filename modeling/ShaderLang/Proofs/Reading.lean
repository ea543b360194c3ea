import Mathlib.Data.List.TakeWhile
import ShaderLang.Grammar

/-!
# Programs that were read

What the grammar guarantees of a program beyond its shape. A declaration names a plain type or an
array of one with a positive length, a function returns a plain type, a constructor has a plain
type, no field name is empty and no integer literal is negative (`Program.asRead_of_ofText`). The
type `error` is never written.

The rules of the grammar call each other with fewer tokens left, so the proof is by the same
recursion; `Outcome.All` says what holds of whatever a rule reads, and `Cursor.Proper` that no name
ahead is empty and no integer negative.
-/

namespace ShaderLang

namespace Ty

/-- A type that has a name of its own. -/
def isPlain : Ty → Bool
  | array .. | error => false
  | _ => true

/-- A type as declarations give it; the length of an array fits into 63 bits. -/
def isDeclarable : Ty → Bool
  | array element length => element.isPlain && 0 < length && length < 0x8000000000000000
  | t => t.isPlain

end Ty

mutual

/-- An expression as the grammar reads it. -/
def Expr.AsRead : Expr → Prop
  | .int _ n => 0 ≤ n
  | .float .. | .bool .. | .var .. => True
  | .binary _ _ left right => left.AsRead ∧ right.AsRead
  | .unary _ _ operand => operand.AsRead
  | .assign _ _ target value => target.AsRead ∧ value.AsRead
  | .stepAfter _ _ operand => operand.AsRead
  | .conditional _ test ifTrue ifFalse => test.AsRead ∧ ifTrue.AsRead ∧ ifFalse.AsRead
  | .index _ base position => base.AsRead ∧ position.AsRead
  | .field _ base name => base.AsRead ∧ name.name ≠ ""
  | .call _ _ arguments => Expr.AllAsRead arguments
  | .construct _ target arguments => target.isPlain = true ∧ Expr.AllAsRead arguments

/-- Expressions as the grammar reads them. -/
def Expr.AllAsRead : List Expr → Prop
  | [] => True
  | e :: rest => e.AsRead ∧ Expr.AllAsRead rest

end

/-- A declaration of a variable as the grammar reads it. -/
structure VarDecl.AsRead (v : VarDecl) : Prop where
  ty : v.ty.isDeclarable = true
  init : ∀ e ∈ v.init, e.AsRead

/-- What a `for` loop begins with, as the grammar reads it. -/
def ForInit.AsRead : ForInit → Prop
  | .expr e => e.AsRead
  | .declare v => v.AsRead

mutual

/-- A statement as the grammar reads it. -/
def Stmt.AsRead : Stmt → Prop
  | .expr _ e => e.AsRead
  | .empty _ | .breakStmt _ | .continueStmt _ => True
  | .declare v => v.AsRead
  | .block _ body => Stmt.AllAsRead body
  | .ifThen _ test ifTrue => test.AsRead ∧ ifTrue.AsRead
  | .ifElse _ test ifTrue ifFalse => test.AsRead ∧ ifTrue.AsRead ∧ ifFalse.AsRead
  | .whileLoop _ test body => test.AsRead ∧ body.AsRead
  | .forLoop _ init test step body =>
    (∀ i ∈ init, i.AsRead) ∧ (∀ e ∈ test, e.AsRead) ∧ (∀ e ∈ step, e.AsRead) ∧ body.AsRead
  | .switch _ value arms => value.AsRead ∧ Stmt.ArmsAsRead arms
  | .returnStmt _ value => ∀ e ∈ value, e.AsRead

/-- Statements as the grammar reads them. -/
def Stmt.AllAsRead : List Stmt → Prop
  | [] => True
  | s :: rest => s.AsRead ∧ Stmt.AllAsRead rest

/-- Arms as the grammar reads them. -/
def Stmt.ArmsAsRead : List (Arm (List Stmt)) → Prop
  | [] => True
  | ⟨_, body, _⟩ :: rest => Stmt.AllAsRead body ∧ Stmt.ArmsAsRead rest

end

/-- A declaration of a function as the grammar reads it. -/
structure FnDecl.AsRead (f : FnDecl) : Prop where
  returnTy : f.returnTy.isPlain = true
  formals : ∀ v ∈ f.formals, v.AsRead
  body : Stmt.AllAsRead f.body.stmts

/-- A declaration as the grammar reads it. -/
def Decl.AsRead : Decl → Prop
  | .var v => v.AsRead
  | .fn f => f.AsRead

/-- A program as the grammar reads it. -/
def Program.AsRead (p : Program) : Prop :=
  ∀ d ∈ p, d.AsRead

theorem Ty.isDeclarable_of_isPlain {t : Ty} (h : t.isPlain = true) : t.isDeclarable = true := by
  cases t <;> first | exact h | simp [isPlain] at h

theorem Expr.asRead_withSpan {e : Expr} (span : Span) (h : e.AsRead) : (e.withSpan span).AsRead := by
  cases e <;> exact h

/-! ## Tokens of a text -/

namespace Token

/-- A text that is a name: letters, digits and underscores, and at least one of them. -/
structure IsName (text : String) : Prop where
  nonempty : text ≠ ""
  continues : ∀ c ∈ text.toList, Scan.continuesName c = true

instance (text : String) : Decidable (IsName text) :=
  decidable_of_iff (text ≠ "" ∧ text.toList.all Scan.continuesName = true)
    ⟨fun h => ⟨h.1, List.all_eq_true.mp h.2⟩, fun h => ⟨h.1, List.all_eq_true.mpr h.2⟩⟩

/-- A token that is a name consists of what names consist of, and one that is an integer is not
negative. -/
def Kind.Proper : Kind → Prop
  | .name text => IsName text
  | .int n => 0 ≤ n
  | _ => True

theorem Scan.continuesName_of_startsName {c : Char} (h : startsName c = true) :
    continuesName c = true := by
  simp only [startsName, continuesName, Char.isAlphanum, Bool.or_eq_true] at h ⊢
  exact h.imp_left .inl

theorem Scan.wordPiece_proper {c : Char} {rest : List Char} {kind : Kind} {length : Nat}
    (hc : startsName c = true) (h : wordPiece (c :: rest) = (.token kind, length)) : kind.Proper := by
  have hword : IsName (String.ofList ((c :: rest).takeWhile continuesName)) := by
    refine ⟨by simp [continuesName_of_startsName hc], fun c' hc' => ?_⟩
    rw [String.toList_ofList] at hc'
    exact List.mem_takeWhile_imp hc'
  simp only [wordPiece, Prod.mk.injEq, Piece.token.injEq] at h
  obtain ⟨rfl, -⟩ := h
  split
  · trivial
  · exact hword

theorem Scan.floatPiece_proper {text : List Char} {n : Nat} {kind : Kind} {length : Nat}
    (h : floatPiece text n = (.token kind, length)) : kind.Proper := by
  unfold floatPiece at h
  split at h
  · simp only [Prod.mk.injEq, Piece.token.injEq] at h
    obtain ⟨rfl, -⟩ := h
    trivial
  · simp at h

theorem Scan.numberPiece_proper {text : List Char} {kind : Kind} {length : Nat}
    (h : numberPiece text = (.token kind, length)) : kind.Proper := by
  unfold numberPiece at h
  dsimp only at h
  split at h
  · exact floatPiece_proper h
  · split at h
    · split at h
      · next hlt =>
        simp only [Prod.mk.injEq, Piece.token.injEq] at h
        obtain ⟨rfl, -⟩ := h
        rw [Kind.Proper, Int64.le_iff_toInt_le, Int64.toInt_ofNat_of_lt hlt]
        exact Int.natCast_nonneg _
      · simp at h
    · exact floatPiece_proper h

theorem Scan.markPiece_proper {c : Char} {rest : List Char} {kind : Kind} {length : Nat}
    (h : markPiece c rest = (.token kind, length)) : kind.Proper := by
  unfold markPiece at h
  split at h
  · simp only [Prod.mk.injEq, Piece.token.injEq] at h
    obtain ⟨rfl, -⟩ := h
    trivial
  · split at h
    · simp only [Prod.mk.injEq, Piece.token.injEq] at h
      obtain ⟨rfl, -⟩ := h
      trivial
    · simp at h

theorem Scan.piece_proper {c : Char} {rest : List Char} {kind : Kind} {length : Nat}
    (h : piece c rest = (.token kind, length)) : kind.Proper := by
  unfold piece at h
  split at h
  · simp at h
  · split at h
    · simp at h
    · split at h
      · split at h <;> simp at h
      · split at h
        · exact numberPiece_proper h
        · split at h
          · exact floatPiece_proper h
          · split at h
            · next hc => exact wordPiece_proper hc h
            · exact markPiece_proper h

/-- What was scanned is proper. -/
theorem Scan.scanFrom_proper (offset : Nat) (text : List Char) :
    ∀ token, .ok token ∈ scanFrom offset text → token.kind.Proper := by
  fun_induction scanFrom offset text with
  | case1 => simp
  | case2 _ _ _ _ _ _ _ _ ih => exact ih
  | case3 offset c rest length taken stop others kind hpiece ih =>
    intro token h
    rcases List.mem_cons.mp h with h | h
    · cases h
      exact piece_proper hpiece
    · exact ih token h
  | case4 _ _ _ _ _ _ _ _ ih =>
    intro token h
    rcases List.mem_cons.mp h with h | h
    · cases h
    · exact ih token h

end Token

namespace Grammar

/-- The tokens in front of a cursor and behind it are proper. -/
structure Cursor.Proper (c : Cursor) : Prop where
  current : c.current.kind.Proper
  pending : ∀ token, .ok token ∈ c.rest.pending → token.kind.Proper

theorem Cursor.named_of_ofText? {source : String} {c : Cursor} (h : Cursor.ofText? source = .ok c) :
    c.Proper := by
  have hall := Token.Scan.scanFrom_proper 0 source.toList
  simp only [ofText?, Token.Stream.next, Token.Stream.ofText] at h
  split at h
  · next hnil =>
    cases h
    exact ⟨trivial, by simp [hnil]⟩
  · next result pending hcons =>
    cases result with
    | error => cases h
    | ok token =>
      cases h
      rw [hcons] at hall
      exact ⟨hall token List.mem_cons_self, fun t ht => hall t (List.mem_cons_of_mem _ ht)⟩

/-- What a rule reads has a property, and it leaves proper tokens behind. -/
def Outcome.All {bound : Nat} {α : Type} (P : α → Prop) : Outcome bound α → Prop
  | .ok value next _ => P value ∧ next.Proper
  | .error .. => True

namespace Outcome

variable {bound other : Nat} {α β : Type} {P : α → Prop} {Q : β → Prop}

theorem All.bind {x : Outcome bound α}
    {f : (value : α) → (next : Cursor) → next.left < bound → Outcome other β} (hx : x.All P)
    (hf : ∀ value next h, P value → next.Proper → (f value next h).All Q) : (x.bind f).All Q := by
  cases x with
  | ok value next h => exact hf value next h hx.1 hx.2
  | error => trivial

theorem All.map {f : α → Cursor → β} {h : bound ≤ other} {x : Outcome bound α} (hx : x.All P)
    (hf : ∀ value next, P value → Q (f value next)) : (x.map f h).All Q :=
  All.bind hx fun value next _ hv hn => ⟨hf value next hv, hn⟩

theorem All.imp {P' : α → Prop} {x : Outcome bound α} (hx : x.All P) (h : ∀ a, P a → P' a) :
    x.All P' := by
  cases x with
  | ok value next _ => exact ⟨h value hx.1, hx.2⟩
  | error => trivial

end Outcome

namespace Cursor

theorem Proper.advance {c : Cursor} (hc : c.Proper) (wanted : Wanted) :
    (c.advance wanted).All fun token => token.kind.Proper := by
  unfold Cursor.advance
  split
  · trivial
  · split
    · next hnil => exact ⟨hc.current, trivial, hc.pending⟩
    · next token others hcons =>
      have hp := hc.pending
      rw [hcons] at hp
      exact ⟨hc.current, hp token List.mem_cons_self, fun t ht => hp t (List.mem_cons_of_mem _ ht)⟩
    · trivial

theorem Proper.expect {c : Cursor} (hc : c.Proper) (m : Mark) : (c.expect m).All fun _ => True := by
  unfold Cursor.expect
  split
  · exact (hc.advance _).imp fun _ _ => trivial
  · trivial

theorem Proper.choose {α : Type} {P : α → Prop} {c : Cursor} (hc : c.Proper) (wanted : Wanted)
    {f : Token → Option α} (hf : ∀ token, token.kind.Proper → ∀ a ∈ f token, P a) :
    (c.choose wanted f).All P := by
  refine (hc.advance wanted).bind fun token next h ht hn => ?_
  split
  · next a ha => exact ⟨hf token ht a ha, hn⟩
  · trivial

theorem Proper.ident {c : Cursor} (hc : c.Proper) :
    c.ident.All fun name => Token.IsName name.name := by
  refine hc.choose _ fun token ht name hname => ?_
  split at hname
  · next hkind =>
    cases hname
    rw [hkind] at ht
    exact ht
  · cases hname

end Cursor

/-! ## Expressions -/

theorem isPlain_of_ty? {word : Keyword} {t : Ty} (h : word.ty? = some t) : t.isPlain = true := by
  cases word <;> simp only [Keyword.ty?, Option.some.injEq, reduceCtorEq] at h <;> subst h <;> rfl

open Cursor Outcome

mutual

theorem expr_all (c : Cursor) (hc : c.Proper) : (expr c).All Expr.AsRead := by
  rw [expr]
  refine (conditional_all c hc).bind fun target c₁ h₁ ht hc₁ => ?_
  split
  · exact ⟨ht, hc₁⟩
  · refine (hc₁.advance _).bind fun _ c₂ h₂ _ hc₂ => ?_
    exact (expr_all c₂ hc₂).bind fun value c₃ h₃ hv hc₃ => ⟨⟨ht, hv⟩, hc₃⟩
  termination_by (c.left, 6)

theorem conditional_all (c : Cursor) (hc : c.Proper) : (conditional c).All Expr.AsRead := by
  rw [conditional]
  refine (binary_all 0 c hc).bind fun test c₁ h₁ ht hc₁ => ?_
  split
  · refine (hc₁.advance _).bind fun _ c₂ h₂ _ hc₂ => ?_
    refine (expr_all c₂ hc₂).bind fun ifTrue c₃ h₃ htrue hc₃ => ?_
    refine (hc₃.expect _).bind fun _ c₄ h₄ _ hc₄ => ?_
    exact (conditional_all c₄ hc₄).bind fun ifFalse c₅ h₅ hfalse hc₅ => ⟨⟨ht, htrue, hfalse⟩, hc₅⟩
  · exact ⟨ht, hc₁⟩
  termination_by (c.left, 5)

theorem binary_all (level : Nat) (c : Cursor) (hc : c.Proper) : (binary level c).All Expr.AsRead := by
  rw [binary]
  refine (unary_all c hc).bind fun left c₁ h₁ hleft hc₁ => ?_
  exact (operators_all level left hleft c₁ hc₁).map fun _ _ he => he
  termination_by (c.left, 4)

theorem operators_all (level : Nat) (left : Expr) (hleft : left.AsRead) (c : Cursor) (hc : c.Proper) :
    (operators level left c).All Expr.AsRead := by
  rw [operators]
  split
  · exact ⟨hleft, hc⟩
  · split
    · exact ⟨hleft, hc⟩
    · refine (hc.advance _).bind fun _ c₁ h₁ _ hc₁ => ?_
      refine (binary_all _ c₁ hc₁).bind fun right c₂ h₂ hright hc₂ => ?_
      exact (operators_all level (.binary _ _ left right) ⟨hleft, hright⟩ c₂ hc₂).map fun _ _ he => he
  termination_by (c.left, 0)

theorem unary_all (c : Cursor) (hc : c.Proper) : (unary c).All Expr.AsRead := by
  rw [unary]
  split
  · exact suffixed_all c hc
  · refine (hc.advance _).bind fun token c₁ h₁ _ hc₁ => ?_
    exact (unary_all c₁ hc₁).bind fun operand c₂ h₂ ho hc₂ => ⟨ho, hc₂⟩
  termination_by (c.left, 3)

theorem suffixed_all (c : Cursor) (hc : c.Proper) : (suffixed c).All Expr.AsRead := by
  rw [suffixed]
  refine (primary_all c hc).bind fun base c₁ h₁ hb hc₁ => ?_
  exact (suffixes_all base hb c₁ hc₁).map fun _ _ he => he
  termination_by (c.left, 2)

theorem suffixes_all (base : Expr) (hb : base.AsRead) (c : Cursor) (hc : c.Proper) :
    (suffixes base c).All Expr.AsRead := by
  rw [suffixes]
  split
  · refine (hc.advance _).bind fun _ c₁ h₁ _ hc₁ => ?_
    refine (expr_all c₁ hc₁).bind fun position c₂ h₂ hp hc₂ => ?_
    refine (hc₂.expect _).bind fun _ c₃ h₃ _ hc₃ => ?_
    exact (suffixes_all (.index _ base position) ⟨hb, hp⟩ c₃ hc₃).map fun _ _ he => he
  · split
    · refine (hc.advance _).bind fun _ c₁ h₁ _ hc₁ => ?_
      refine hc₁.ident.bind fun name c₂ h₂ hname hc₂ => ?_
      exact (suffixes_all (.field _ base name) ⟨hb, hname.nonempty⟩ c₂ hc₂).map fun _ _ he => he
    · split
      · exact ⟨hb, hc⟩
      · refine (hc.advance _).bind fun _ c₁ h₁ _ hc₁ => ?_
        exact (suffixes_all (.stepAfter _ _ base) hb c₁ hc₁).map fun _ _ he => he
  termination_by (c.left, 0)

theorem primary_all (c : Cursor) (hc : c.Proper) : (primary c).All Expr.AsRead := by
  rw [primary]
  refine (hc.advance _).bind fun token c₁ h₁ htoken hc₁ => ?_
  split
  · next hkind =>
    rw [hkind] at htoken
    exact ⟨htoken, hc₁⟩
  · exact ⟨trivial, hc₁⟩
  · exact ⟨trivial, hc₁⟩
  · exact ⟨trivial, hc₁⟩
  · split
    · next hty => exact (arguments_all c₁ hc₁).map fun _ _ ha => ⟨isPlain_of_ty? hty, ha⟩
    · trivial
  · dsimp only
    split
    · exact (arguments_all c₁ hc₁).map fun _ _ ha => ha
    · exact ⟨trivial, hc₁⟩
  · refine (expr_all c₁ hc₁).bind fun inner c₂ h₂ hi hc₂ => ?_
    exact (hc₂.expect _).map fun _ c₃ _ => Expr.asRead_withSpan _ hi
  · trivial
  termination_by (c.left, 1)

theorem arguments_all (c : Cursor) (hc : c.Proper) : (arguments c).All Expr.AllAsRead := by
  rw [arguments]
  refine (hc.expect _).bind fun _ c₁ h₁ _ hc₁ => ?_
  split
  · exact (hc₁.expect _).map fun _ _ _ => trivial
  · refine (commaList_all c₁ hc₁).bind fun arguments c₂ h₂ ha hc₂ => ?_
    exact (hc₂.expect _).map fun _ _ _ => ha
  termination_by (c.left, 0)

theorem commaList_all (c : Cursor) (hc : c.Proper) : (commaList c).All Expr.AllAsRead := by
  rw [commaList]
  refine (expr_all c hc).bind fun first c₁ h₁ hf hc₁ => ?_
  split
  · refine (hc₁.advance _).bind fun _ c₂ h₂ _ hc₂ => ?_
    exact (commaList_all c₂ hc₂).map fun _ _ ho => ⟨hf, ho⟩
  · exact ⟨⟨hf, trivial⟩, hc₁⟩
  termination_by (c.left, 7)

end

/-! ## Declarations -/

theorem qualifier_all (c : Cursor) (hc : c.Proper) : (qualifier c).All fun _ => True := by
  unfold qualifier
  split
  · exact (hc.advance _).map fun _ _ _ => trivial
  · exact ⟨trivial, hc⟩

theorem ty_all (c : Cursor) (hc : c.Proper) : (ty c).All fun t => t.isPlain = true := by
  unfold ty
  split
  · next t ht =>
    refine (hc.advance _).map fun _ _ _ => ?_
    unfold Token.Kind.ty? at ht
    split at ht
    · exact isPlain_of_ty? ht
    · cases ht
  · trivial

theorem arrayLength_all (c : Cursor) (hc : c.Proper) :
    (arrayLength c).All fun n => 0 < n ∧ n < 0x8000000000000000 := by
  refine hc.choose _ fun token _ n hn => ?_
  split at hn
  · next value _ =>
    split at hn
    · next hpos =>
      cases hn
      have hlt : value.toInt < 2 ^ 63 := Int64.toInt_lt value
      have hpos : 0 < value.toInt := by simpa [Int64.lt_iff_toInt_lt] using hpos
      have : value.toNatClampNeg = value.toInt.toNat := rfl
      omega
    · cases hn
  · cases hn

theorem arraySuffix_all {element : Ty} (he : element.isPlain = true) (c : Cursor) (hc : c.Proper) :
    (arraySuffix element c).All fun t => t.isDeclarable = true := by
  unfold arraySuffix
  split
  · refine (hc.advance _).bind fun _ c₁ h₁ _ hc₁ => ?_
    refine (arrayLength_all c₁ hc₁).bind fun length c₂ h₂ hlength hc₂ => ?_
    refine (hc₂.expect _).map fun _ _ _ => ?_
    simp [Ty.isDeclarable, he, hlength]
  · exact ⟨Ty.isDeclarable_of_isPlain he, hc⟩

theorem head_all (c : Cursor) (hc : c.Proper) : (head c).All fun d => d.ty.isPlain = true := by
  unfold head
  refine (qualifier_all c hc).bind fun q c₁ h₁ _ hc₁ => ?_
  refine (ty_all c₁ hc₁).bind fun t c₂ h₂ ht hc₂ => ?_
  exact hc₂.ident.map fun _ _ _ => ht

theorem initializer_all (c : Cursor) (hc : c.Proper) :
    (initializer c).All fun init => ∀ e ∈ init, e.AsRead := by
  unfold initializer
  split
  · refine (hc.advance _).bind fun _ c₁ h₁ _ hc₁ => ?_
    exact (expr_all c₁ hc₁).map fun _ _ he => by simpa using he
  · exact ⟨by simp, hc⟩

theorem varRest_all {d : Head} (hd : d.ty.isPlain = true) (c : Cursor) (hc : c.Proper) :
    (varRest d c).All VarDecl.AsRead := by
  unfold varRest
  refine (arraySuffix_all hd c hc).bind fun t c₁ h₁ ht hc₁ => ?_
  refine (initializer_all c₁ hc₁).bind fun init c₂ h₂ hinit hc₂ => ?_
  exact (hc₂.expect _).map fun _ _ _ => ⟨ht, hinit⟩

theorem varDecl_all (c : Cursor) (hc : c.Proper) : (varDecl c).All VarDecl.AsRead := by
  unfold varDecl
  refine (head_all c hc).bind fun d c₁ h₁ hd hc₁ => ?_
  exact (varRest_all hd c₁ hc₁).map fun _ _ hv => hv

theorem formal_all (c : Cursor) (hc : c.Proper) : (formal c).All VarDecl.AsRead := by
  unfold formal
  refine (head_all c hc).bind fun d c₁ h₁ hd hc₁ => ?_
  exact (arraySuffix_all hd c₁ hc₁).map fun _ _ ht => ⟨ht, by simp⟩

/-! ## Statements -/

theorem exprUnless_all (m : Mark) (c : Cursor) (hc : c.Proper) :
    (exprUnless m c).All fun o => ∀ e ∈ o, e.AsRead := by
  unfold exprUnless
  split
  · exact ⟨by simp, hc⟩
  · exact (expr_all c hc).map fun _ _ he => by simpa using he

theorem test_all (c : Cursor) (hc : c.Proper) : (test c).All Expr.AsRead := by
  unfold test
  refine (hc.expect _).bind fun _ c₁ h₁ _ hc₁ => ?_
  refine (expr_all c₁ hc₁).bind fun e c₂ h₂ he hc₂ => ?_
  exact (hc₂.expect _).map fun _ _ _ => he

theorem forInit_all (c : Cursor) (hc : c.Proper) :
    (forInit c).All fun o => ∀ i ∈ o, i.AsRead := by
  unfold forInit
  split
  · exact (hc.expect _).map fun _ _ _ => by simp
  · split
    · trivial
    · exact (varDecl_all c hc).map fun v _ hv i hi => by cases hi; exact hv
    · refine (expr_all c hc).bind fun e c₁ h₁ he hc₁ => ?_
      exact (hc₁.expect _).map fun _ _ _ i hi => by cases hi; exact he

theorem label_all (c : Cursor) (hc : c.Proper) : (label c).All fun _ => True := by
  unfold label
  split
  · refine (hc.advance _).bind fun _ c₁ h₁ _ hc₁ => ?_
    refine (expr_all c₁ hc₁).bind fun e c₂ h₂ _ hc₂ => ?_
    exact (hc₂.expect _).map fun _ _ _ => trivial
  · split
    · refine (hc.advance _).bind fun _ c₁ h₁ _ hc₁ => ?_
      exact (hc₁.expect _).map fun _ _ _ => trivial
    · trivial

mutual

theorem block_all (c : Cursor) (hc : c.Proper) :
    (block c).All fun body => Stmt.AllAsRead body.stmts := by
  rw [block]
  refine (hc.expect _).bind fun _ c₁ h₁ _ hc₁ => ?_
  exact (blockBody_all c₁ hc₁).map fun _ _ hs => hs
  termination_by (c.left, 1)

theorem blockBody_all (c : Cursor) (hc : c.Proper) : (blockBody c).All Stmt.AllAsRead := by
  rw [blockBody]
  split
  · exact (hc.expect _).map fun _ _ _ => trivial
  · split
    · trivial
    · refine (stmt_all c hc).bind fun first c₁ h₁ hf hc₁ => ?_
      exact (blockBody_all c₁ hc₁).map fun _ _ ho => ⟨hf, ho⟩
  termination_by (c.left, 3)

theorem stmt_all (c : Cursor) (hc : c.Proper) : (stmt c).All Stmt.AsRead := by
  rw [stmt]
  split
  · trivial
  · exact (varDecl_all c hc).map fun _ _ hv => hv
  · dsimp only
    split
    · exact (block_all c hc).map fun _ _ hb => hb
    · exact (hc.expect _).map fun _ _ _ => trivial
    · refine (hc.advance _).bind fun _ c₁ h₁ _ hc₁ => ?_
      refine (test_all c₁ hc₁).bind fun condition c₂ h₂ ht hc₂ => ?_
      refine (stmt_all c₂ hc₂).bind fun ifTrue c₃ h₃ htrue hc₃ => ?_
      split
      · refine (hc₃.advance _).bind fun _ c₄ h₄ _ hc₄ => ?_
        exact (stmt_all c₄ hc₄).map fun _ _ hfalse => ⟨ht, htrue, hfalse⟩
      · exact ⟨⟨ht, htrue⟩, hc₃⟩
    · refine (hc.advance _).bind fun _ c₁ h₁ _ hc₁ => ?_
      refine (test_all c₁ hc₁).bind fun condition c₂ h₂ ht hc₂ => ?_
      exact (stmt_all c₂ hc₂).map fun _ _ hb => ⟨ht, hb⟩
    · refine (hc.advance _).bind fun _ c₁ h₁ _ hc₁ => ?_
      refine (hc₁.expect _).bind fun _ c₂ h₂ _ hc₂ => ?_
      refine (forInit_all c₂ hc₂).bind fun init c₃ h₃ hinit hc₃ => ?_
      refine (exprUnless_all _ c₃ hc₃).bind fun condition c₄ h₄ ht hc₄ => ?_
      refine (hc₄.expect _).bind fun _ c₅ h₅ _ hc₅ => ?_
      refine (exprUnless_all _ c₅ hc₅).bind fun step c₆ h₆ hstep hc₆ => ?_
      refine (hc₆.expect _).bind fun _ c₇ h₇ _ hc₇ => ?_
      exact (stmt_all c₇ hc₇).map fun _ _ hb => ⟨hinit, ht, hstep, hb⟩
    · refine (hc.advance _).bind fun _ c₁ h₁ _ hc₁ => ?_
      refine (test_all c₁ hc₁).bind fun value c₂ h₂ hv hc₂ => ?_
      refine (hc₂.expect _).bind fun _ c₃ h₃ _ hc₃ => ?_
      exact (arms_all c₃ hc₃).map fun _ _ ha => ⟨hv, ha⟩
    · refine (hc.advance _).bind fun _ c₁ h₁ _ hc₁ => ?_
      exact (hc₁.expect _).map fun _ _ _ => trivial
    · refine (hc.advance _).bind fun _ c₁ h₁ _ hc₁ => ?_
      exact (hc₁.expect _).map fun _ _ _ => trivial
    · refine (hc.advance _).bind fun _ c₁ h₁ _ hc₁ => ?_
      refine (exprUnless_all _ c₁ hc₁).bind fun value c₂ h₂ hv hc₂ => ?_
      exact (hc₂.expect _).map fun _ _ _ => hv
    · refine (expr_all c hc).bind fun e c₁ h₁ he hc₁ => ?_
      exact (hc₁.expect _).map fun _ _ _ => he
  termination_by (c.left, 2)

theorem arms_all (c : Cursor) (hc : c.Proper) : (arms c).All Stmt.ArmsAsRead := by
  rw [arms]
  split
  · exact (hc.expect _).map fun _ _ _ => trivial
  · refine (label_all c hc).bind fun label c₁ h₁ _ hc₁ => ?_
    refine (armBody_all c₁ hc₁).bind fun body c₂ h₂ hb hc₂ => ?_
    exact (arms_all c₂ hc₂).map fun _ _ ho => ⟨hb, ho⟩
  termination_by (c.left, 0)

theorem armBody_all (c : Cursor) (hc : c.Proper) : (armBody c).All Stmt.AllAsRead := by
  rw [armBody]
  split
  · exact ⟨trivial, hc⟩
  · refine (stmt_all c hc).bind fun first c₁ h₁ hf hc₁ => ?_
    exact (armBody_all c₁ hc₁).map fun _ _ ho => ⟨hf, ho⟩
  termination_by (c.left, 3)

end

/-! ## Programs -/

theorem formalList_all (c : Cursor) (hc : c.Proper) :
    (formalList c).All fun vs => ∀ v ∈ vs, v.AsRead := by
  rw [formalList]
  refine (formal_all c hc).bind fun first c₁ h₁ hf hc₁ => ?_
  split
  · refine (hc₁.advance _).bind fun _ c₂ h₂ _ hc₂ => ?_
    exact (formalList_all c₂ hc₂).map fun others _ ho => List.forall_mem_cons.mpr ⟨hf, ho⟩
  · exact ⟨by simpa using hf, hc₁⟩
  termination_by c.left

theorem formals_all (c : Cursor) (hc : c.Proper) :
    (formals c).All fun vs => ∀ v ∈ vs, v.AsRead := by
  unfold formals
  split
  · exact ⟨by simp, hc⟩
  · split
    · split
      · trivial
      · split
        · exact (hc.advance _).map fun _ _ _ => by simp
        · exact (formalList_all c hc).map fun _ _ h => h
    · exact (formalList_all c hc).map fun _ _ h => h

theorem fnRest_all {d : Head} (hd : d.ty.isPlain = true) (c : Cursor) (hc : c.Proper) :
    (fnRest d c).All FnDecl.AsRead := by
  unfold fnRest
  refine (hc.expect _).bind fun _ c₁ h₁ _ hc₁ => ?_
  refine (formals_all c₁ hc₁).bind fun formals c₂ h₂ hformals hc₂ => ?_
  refine (hc₂.expect _).bind fun _ c₃ h₃ _ hc₃ => ?_
  exact (block_all c₃ hc₃).map fun _ _ hb => ⟨hd, hformals, hb⟩

theorem decl_all (c : Cursor) (hc : c.Proper) : (decl c).All Decl.AsRead := by
  unfold decl
  refine (head_all c hc).bind fun d c₁ h₁ hd hc₁ => ?_
  split
  · split
    · trivial
    · exact (fnRest_all hd c₁ hc₁).map fun _ _ hf => hf
  · exact (varRest_all hd c₁ hc₁).map fun _ _ hv => hv

theorem decls_all (c : Cursor) (hc : c.Proper) : (decls c).All Program.AsRead := by
  rw [decls]
  split
  · exact ⟨by simp [Program.AsRead], hc⟩
  · refine (decl_all c hc).bind fun first c₁ h₁ hf hc₁ => ?_
    exact (decls_all c₁ hc₁).map fun others _ ho => List.forall_mem_cons.mpr ⟨hf, ho⟩
  termination_by c.left

end Grammar

/-- A program that was read has only declarable types and no empty field name. -/
theorem Program.asRead_of_ofText {source : String} {p : Program}
    (h : Program.ofText? source = .ok p) : p.AsRead := by
  unfold Program.ofText? at h
  split at h
  · cases h
  · next c hc =>
    have hall := Grammar.decls_all c (Grammar.Cursor.named_of_ofText? hc)
    revert h hall
    cases Grammar.decls c with
    | ok value next left_lt =>
      intro h hall
      cases h
      exact hall.1
    | error => intro h; cases h

end ShaderLang
