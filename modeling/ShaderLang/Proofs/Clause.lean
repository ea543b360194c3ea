import ShaderLang.Proofs.Phrase

/-!
# Clauses

The grammar of statements and declarations as relations between tokens and what they stand for, on
top of the phrases. An `if` without an `else` leaves a statement dangling: an `else` behind it would
belong to it, so a dangling statement cannot stand between an `if` and its `else`.

Clauses keep their shape when the spans of their tokens are changed (`DeclClause.mapSpan`), and the
expressions in them are phrases on some of their tokens (`DeclClause.everywhere`).
-/

namespace ShaderLang

/-! ## Changes of spans -/

/-- The declaration with all spans in it changed. -/
def VarDecl.mapSpans (f : Span → Span) (v : VarDecl) : VarDecl :=
  ⟨v.name.mapSpan f, v.ty, v.qualifier, v.init.map (Expr.mapSpans f), f v.span⟩

/-- What a `for` loop begins with, with all spans in it changed. -/
def ForInit.mapSpans (f : Span → Span) : ForInit → ForInit
  | .expr e => .expr (e.mapSpans f)
  | .declare v => .declare (v.mapSpans f)

mutual

/-- The statement with all spans in it changed. -/
def Stmt.mapSpans (f : Span → Span) : Stmt → Stmt
  | .expr span e => .expr (f span) (e.mapSpans f)
  | .empty span => .empty (f span)
  | .declare v => .declare (v.mapSpans f)
  | .block span body => .block (f span) (Stmt.mapAllSpans f body)
  | .ifThen span test ifTrue => .ifThen (f span) (test.mapSpans f) (ifTrue.mapSpans f)
  | .ifElse span test ifTrue ifFalse =>
    .ifElse (f span) (test.mapSpans f) (ifTrue.mapSpans f) (ifFalse.mapSpans f)
  | .whileLoop span test body => .whileLoop (f span) (test.mapSpans f) (body.mapSpans f)
  | .forLoop span init test step body =>
    .forLoop (f span) (init.map (ForInit.mapSpans f)) (test.map (Expr.mapSpans f))
      (step.map (Expr.mapSpans f)) (body.mapSpans f)
  | .switch span value arms => .switch (f span) (value.mapSpans f) (Stmt.mapArmsSpans f arms)
  | .breakStmt span => .breakStmt (f span)
  | .continueStmt span => .continueStmt (f span)
  | .returnStmt span value => .returnStmt (f span) (value.map (Expr.mapSpans f))

/-- The statements with all spans in them changed. -/
def Stmt.mapAllSpans (f : Span → Span) : List Stmt → List Stmt
  | [] => []
  | s :: rest => s.mapSpans f :: Stmt.mapAllSpans f rest

/-- The arms with all spans in them changed. -/
def Stmt.mapArmsSpans (f : Span → Span) : List (Arm (List Stmt)) → List (Arm (List Stmt))
  | [] => []
  | ⟨label, body, span⟩ :: rest =>
    ⟨label.map (Expr.mapSpans f), Stmt.mapAllSpans f body, f span⟩ :: Stmt.mapArmsSpans f rest

end

/-- The block with all spans in it changed. -/
def Block.mapSpans (f : Span → Span) (b : Block) : Block :=
  ⟨Stmt.mapAllSpans f b.stmts, f b.span⟩

/-- The declaration with all spans in it changed. -/
def FnDecl.mapSpans (f : Span → Span) (d : FnDecl) : FnDecl :=
  ⟨d.name.mapSpan f, d.returnTy, d.formals.map (VarDecl.mapSpans f), d.body.mapSpans f, f d.span⟩

/-- The declaration with all spans in it changed. -/
def Decl.mapSpans (f : Span → Span) : Decl → Decl
  | .var v => .var (v.mapSpans f)
  | .fn d => .fn (d.mapSpans f)

namespace Grammar

/-- The head with all spans in it changed. -/
def Head.mapSpans (f : Span → Span) (d : Head) : Head :=
  ⟨f d.start, d.qualifier, d.ty, d.name.mapSpan f⟩

/-! ## The relations -/

/-- A type and a name, with or without a qualifier in front. -/
inductive HeadClause : List Token → Head → Prop
  | plain {t n : Token} {target : Ty} {text : String} (ht : t.kind.ty? = some target)
      (hn : n.kind = .name text) : HeadClause [t, n] ⟨t.span, none, target, ⟨text, n.span⟩⟩
  | qualified {q t n : Token} {qualifier : Qualifier} {target : Ty} {text : String}
      (hq : q.kind.qualifier? = some qualifier) (ht : t.kind.ty? = some target)
      (hn : n.kind = .name text) :
      HeadClause [q, t, n] ⟨q.span, some qualifier, target, ⟨text, n.span⟩⟩

/-- The brackets behind the name of an array, or nothing. -/
inductive ArrayClause (element : Ty) : List Token → Ty → Prop
  | none : ArrayClause element [] element
  | some {o n c : Token} {length : Int64} (ho : o.kind = .mark .openBracket)
      (hn : n.kind = .int length) (hlength : 0 < length) (hc : c.kind = .mark .closeBracket) :
      ArrayClause element [o, n, c] (.array element length.toNatClampNeg)

/-- An expression, or nothing. -/
inductive OptionClause : List Token → Option Expr → Prop
  | none : OptionClause [] none
  | some {ts : List Token} {e : Expr} (he : Phrase .assignment ts e) : OptionClause ts (some e)

/-- An initializer, or nothing. -/
inductive InitClause : List Token → Option Expr → Prop
  | none : InitClause [] none
  | some {o : Token} {ts : List Token} {e : Expr} (ho : o.kind = .mark .assign)
      (he : Phrase .assignment ts e) : InitClause (o :: ts) (some e)

/-- The declaration of a variable. -/
inductive VarClause : List Token → VarDecl → Prop
  | mk {s : Token} {ts us vs : List Token} {d : Head} {target : Ty} {init : Option Expr}
      (hd : HeadClause ts d) (ha : ArrayClause d.ty us target) (hi : InitClause vs init)
      (hs : s.kind = .mark .semicolon) :
      VarClause (ts ++ (us ++ (vs ++ [s])))
        ⟨d.name, target, d.qualifier, init, Token.reach (ts ++ (us ++ (vs ++ [s])))⟩

/-- A formal parameter. -/
inductive FormalClause : List Token → VarDecl → Prop
  | mk {ts us : List Token} {d : Head} {target : Ty} (hd : HeadClause ts d)
      (ha : ArrayClause d.ty us target) :
      FormalClause (ts ++ us) ⟨d.name, target, d.qualifier, none, Token.reach (ts ++ us)⟩

/-- An expression in parentheses. -/
inductive TestClause : List Token → Expr → Prop
  | mk {o c : Token} {ts : List Token} {e : Expr} (ho : o.kind = .mark .openParen)
      (he : Phrase .assignment ts e) (hc : c.kind = .mark .closeParen) :
      TestClause (o :: (ts ++ [c])) e

/-- What a `for` loop begins with, up to the first semicolon. -/
inductive ForClause : List Token → Option ForInit → Prop
  | none {s : Token} (hs : s.kind = .mark .semicolon) : ForClause [s] none
  | declare {ts : List Token} {v : VarDecl} (hv : VarClause ts v) : ForClause ts (some (.declare v))
  | expr {s : Token} {ts : List Token} {e : Expr} (he : Phrase .assignment ts e)
      (hs : s.kind = .mark .semicolon) : ForClause (ts ++ [s]) (some (.expr e))

/-- The label of an arm. -/
inductive LabelClause : List Token → Option Expr → Prop
  | case {k c : Token} {ts : List Token} {e : Expr} (hk : k.kind = .keyword .caseWord)
      (he : Phrase .assignment ts e) (hc : c.kind = .mark .colon) :
      LabelClause (k :: (ts ++ [c])) (some e)
  | default {k c : Token} (hk : k.kind = .keyword .defaultWord) (hc : c.kind = .mark .colon) :
      LabelClause [k, c] none

mutual

/-- A statement, which is dangling or not. -/
inductive StmtClause : Bool → List Token → Stmt → Prop
  | declare {ts : List Token} {v : VarDecl} (hv : VarClause ts v) : StmtClause false ts (.declare v)
  | block {o c : Token} {ts : List Token} {body : List Stmt} (ho : o.kind = .mark .openBrace)
      (hb : StmtsClause ts body) (hc : c.kind = .mark .closeBrace) :
      StmtClause false (o :: (ts ++ [c])) (.block (Token.reach (o :: (ts ++ [c]))) body)
  | empty {s : Token} (hs : s.kind = .mark .semicolon) :
      StmtClause false [s] (.empty (Token.reach [s]))
  | ifThen {k : Token} {ts us : List Token} {test : Expr} {ifTrue : Stmt} {dangling : Bool}
      (hk : k.kind = .keyword .ifWord) (ht : TestClause ts test)
      (hu : StmtClause dangling us ifTrue) :
      StmtClause true (k :: (ts ++ us)) (.ifThen (Token.reach (k :: (ts ++ us))) test ifTrue)
  | ifElse {k l : Token} {ts us vs : List Token} {test : Expr} {ifTrue ifFalse : Stmt}
      {dangling : Bool} (hk : k.kind = .keyword .ifWord) (ht : TestClause ts test)
      (hu : StmtClause false us ifTrue) (hl : l.kind = .keyword .elseWord)
      (hv : StmtClause dangling vs ifFalse) :
      StmtClause dangling (k :: (ts ++ (us ++ l :: vs)))
        (.ifElse (Token.reach (k :: (ts ++ (us ++ l :: vs)))) test ifTrue ifFalse)
  | whileLoop {k : Token} {ts us : List Token} {test : Expr} {body : Stmt} {dangling : Bool}
      (hk : k.kind = .keyword .whileWord) (ht : TestClause ts test)
      (hb : StmtClause dangling us body) :
      StmtClause dangling (k :: (ts ++ us)) (.whileLoop (Token.reach (k :: (ts ++ us))) test body)
  | forLoop {k o s c : Token} {is ts us vs : List Token} {init : Option ForInit}
      {test step : Option Expr} {body : Stmt} {dangling : Bool} (hk : k.kind = .keyword .forWord)
      (ho : o.kind = .mark .openParen) (hi : ForClause is init) (ht : OptionClause ts test)
      (hs : s.kind = .mark .semicolon) (hu : OptionClause us step)
      (hc : c.kind = .mark .closeParen) (hb : StmtClause dangling vs body) :
      StmtClause dangling (k :: o :: (is ++ (ts ++ s :: (us ++ c :: vs))))
        (.forLoop (Token.reach (k :: o :: (is ++ (ts ++ s :: (us ++ c :: vs))))) init test step
          body)
  | switch {k o : Token} {ts us : List Token} {value : Expr} {arms : List (Arm (List Stmt))}
      (hk : k.kind = .keyword .switchWord) (hv : TestClause ts value)
      (ho : o.kind = .mark .openBrace) (ha : ArmsClause us arms) :
      StmtClause false (k :: (ts ++ o :: us))
        (.switch (Token.reach (k :: (ts ++ o :: us))) value arms)
  | breakStmt {k s : Token} (hk : k.kind = .keyword .breakWord) (hs : s.kind = .mark .semicolon) :
      StmtClause false [k, s] (.breakStmt (Token.reach [k, s]))
  | continueStmt {k s : Token} (hk : k.kind = .keyword .continueWord)
      (hs : s.kind = .mark .semicolon) :
      StmtClause false [k, s] (.continueStmt (Token.reach [k, s]))
  | returnStmt {k s : Token} {ts : List Token} {value : Option Expr}
      (hk : k.kind = .keyword .returnWord) (hv : OptionClause ts value)
      (hs : s.kind = .mark .semicolon) :
      StmtClause false (k :: (ts ++ [s])) (.returnStmt (Token.reach (k :: (ts ++ [s]))) value)
  | expr {s : Token} {ts : List Token} {e : Expr} (he : Phrase .assignment ts e)
      (hs : s.kind = .mark .semicolon) :
      StmtClause false (ts ++ [s]) (.expr (Token.reach (ts ++ [s])) e)

/-- Statements one after the other. -/
inductive StmtsClause : List Token → List Stmt → Prop
  | nil : StmtsClause [] []
  | cons {dangling : Bool} {ts us : List Token} {first : Stmt} {others : List Stmt}
      (hf : StmtClause dangling ts first) (ho : StmtsClause us others) :
      StmtsClause (ts ++ us) (first :: others)

/-- The arms of a `switch`, with the brace behind them. -/
inductive ArmsClause : List Token → List (Arm (List Stmt)) → Prop
  | nil {c : Token} (hc : c.kind = .mark .closeBrace) : ArmsClause [c] []
  | cons {ts us vs : List Token} {label : Option Expr} {body : List Stmt}
      {others : List (Arm (List Stmt))} (hl : LabelClause ts label) (hb : StmtsClause us body)
      (ho : ArmsClause vs others) :
      ArmsClause (ts ++ (us ++ vs)) (⟨label, body, Token.reach (ts ++ us)⟩ :: others)

end

/-- Formal parameters with commas between them, one or more. -/
inductive FormalListClause : List Token → List VarDecl → Prop
  | one {ts : List Token} {v : VarDecl} (hv : FormalClause ts v) : FormalListClause ts [v]
  | cons {o : Token} {ts us : List Token} {v : VarDecl} {vs : List VarDecl}
      (hv : FormalClause ts v) (ho : o.kind = .mark .comma) (hvs : FormalListClause us vs) :
      FormalListClause (ts ++ o :: us) (v :: vs)

/-- What stands between the parentheses behind the name of a function. -/
inductive FormalsClause : List Token → List VarDecl → Prop
  | none : FormalsClause [] []
  | void {k : Token} (hk : k.kind = .keyword .voidWord) : FormalsClause [k] []
  | some {ts : List Token} {vs : List VarDecl} (hvs : FormalListClause ts vs) : FormalsClause ts vs

/-- Statements between braces. -/
inductive BlockClause : List Token → Block → Prop
  | mk {o c : Token} {ts : List Token} {body : List Stmt} (ho : o.kind = .mark .openBrace)
      (hb : StmtsClause ts body) (hc : c.kind = .mark .closeBrace) :
      BlockClause (o :: (ts ++ [c])) ⟨body, Token.reach (o :: (ts ++ [c]))⟩

/-- A declaration at the top of a program. -/
inductive DeclClause : List Token → Decl → Prop
  | var {ts : List Token} {v : VarDecl} (hv : VarClause ts v) : DeclClause ts (.var v)
  | fn {o c : Token} {ts us vs : List Token} {d : Head} {formals : List VarDecl} {body : Block}
      (hd : HeadClause ts d) (hq : d.qualifier = none) (ho : o.kind = .mark .openParen)
      (hf : FormalsClause us formals) (hc : c.kind = .mark .closeParen) (hb : BlockClause vs body) :
      DeclClause (ts ++ o :: (us ++ c :: vs))
        (.fn ⟨d.name, d.ty, formals, body, Token.reach (ts ++ o :: (us ++ c :: vs))⟩)

/-- Declarations one after the other. -/
inductive ProgramClause : List Token → Program → Prop
  | nil : ProgramClause [] []
  | cons {ts us : List Token} {d : Decl} {p : Program} (hd : DeclClause ts d)
      (hp : ProgramClause us p) : ProgramClause (ts ++ us) (d :: p)

variable {ts us : List Token}

/-! ## What a clause begins with -/

/-- The tokens that a statement may begin with. Those that it cannot begin with are among those that
end a row of statements, and so is the word that a dangling statement takes. -/
def startsStmt : Token.Kind → Bool
  | .keyword .elseWord | .keyword .caseWord | .keyword .defaultWord | .mark .closeBrace
  | .endOfText => false
  | _ => true

theorem HeadClause.exists_start {d : Head} (h : HeadClause ts d) :
    ∃ t rest, ts = t :: rest ∧ d.start = t.span ∧ t.kind.startsDeclaration = true := by
  cases h with
  | plain ht =>
    exact ⟨_, _, rfl, rfl, by simp [Token.Kind.startsDeclaration, Token.Kind.isType, ht]⟩
  | qualified hq =>
    exact ⟨_, _, rfl, rfl, by simp [Token.Kind.startsDeclaration, Token.Kind.isQualifier, hq]⟩

theorem startsStmt_of_startsDeclaration {k : Token.Kind} (h : k.startsDeclaration = true) :
    startsStmt k = true := by
  cases k with
  | keyword word => cases word <;> first | rfl | cases h
  | _ => cases h

theorem startsStmt_of_startsExpr {k : Token.Kind} (h : startsExpr k = true) :
    startsStmt k = true := by
  cases k with
  | keyword word => cases word <;> first | rfl | cases h
  | mark m => cases m <;> first | rfl | cases h
  | endOfText => cases h
  | _ => rfl

theorem StmtClause.exists_start {dangling : Bool} {s : Stmt} (h : StmtClause dangling ts s) :
    ∃ t rest, ts = t :: rest ∧ startsStmt t.kind = true := by
  cases h with
  | declare hv =>
    obtain ⟨hd, -, -, -⟩ := hv
    obtain ⟨t, rest, rfl, -, ht⟩ := hd.exists_start
    exact ⟨t, _, rfl, startsStmt_of_startsDeclaration ht⟩
  | expr he =>
    obtain ⟨t, ht⟩ := he.opens
    obtain ⟨rest, rfl⟩ := List.head?_eq_some_iff.mp ht.head
    exact ⟨t, _, rfl, startsStmt_of_startsExpr ht.starts⟩
  | block ho => exact ⟨_, _, rfl, by rw [ho]; rfl⟩
  | empty hs => exact ⟨_, _, rfl, by rw [hs]; rfl⟩
  | ifThen hk | ifElse hk | whileLoop hk | forLoop hk | switch hk | breakStmt hk | continueStmt hk
  | returnStmt hk => exact ⟨_, _, rfl, by rw [hk]; rfl⟩

theorem StmtClause.ne_nil {dangling : Bool} {s : Stmt} (h : StmtClause dangling ts s) :
    ts ≠ [] := by
  obtain ⟨t, rest, rfl, -⟩ := h.exists_start
  exact List.cons_ne_nil t rest

theorem ArmsClause.ne_nil {arms : List (Arm (List Stmt))} (h : ArmsClause ts arms) : ts ≠ [] := by
  cases h with
  | nil => simp
  | cons hl => cases hl <;> simp

theorem DeclClause.ne_nil {d : Decl} (h : DeclClause ts d) : ts ≠ [] := by
  cases h with
  | var hv =>
    cases hv
    simp
  | fn => simp

/-! ## Changes of spans -/

variable {f : Span → Span}

theorem HeadClause.mapSpan {d : Head} (h : HeadClause ts d) :
    HeadClause (ts.map (·.mapSpan f)) (d.mapSpans f) := by
  cases h with
  | @plain t n _ _ ht hn => exact .plain (t := t.mapSpan f) (n := n.mapSpan f) ht hn
  | @qualified q t n _ _ _ hq ht hn =>
    exact .qualified (q := q.mapSpan f) (t := t.mapSpan f) (n := n.mapSpan f) hq ht hn

theorem ArrayClause.mapSpan {element target : Ty} (h : ArrayClause element ts target) :
    ArrayClause element (ts.map (·.mapSpan f)) target := by
  cases h with
  | none => exact .none
  | @some o n c _ ho hn hlength hc =>
    exact .some (o := o.mapSpan f) (n := n.mapSpan f) (c := c.mapSpan f) ho hn hlength hc

theorem OptionClause.mapSpan (hf : Span.KeepsMerge f) {e : Option Expr} (h : OptionClause ts e) :
    OptionClause (ts.map (·.mapSpan f)) (e.map (Expr.mapSpans f)) := by
  cases h with
  | none => exact .none
  | some he => exact .some (he.mapSpan hf)

theorem InitClause.mapSpan (hf : Span.KeepsMerge f) {e : Option Expr} (h : InitClause ts e) :
    InitClause (ts.map (·.mapSpan f)) (e.map (Expr.mapSpans f)) := by
  cases h with
  | none => exact .none
  | @some o _ _ ho he => exact .some (o := o.mapSpan f) ho (he.mapSpan hf)

theorem VarClause.mapSpan (hf : Span.KeepsMerge f) {v : VarDecl} (h : VarClause ts v) :
    VarClause (ts.map (·.mapSpan f)) (v.mapSpans f) := by
  cases h with
  | @mk s _ _ _ d _ _ hd ha hi hs =>
    rw [VarDecl.mapSpans, ← Token.reach_map hf (by simp)]
    simpa [Head.mapSpans] using VarClause.mk (s := s.mapSpan f) (d := d.mapSpans f) hd.mapSpan
      ha.mapSpan (hi.mapSpan hf) hs

theorem FormalClause.mapSpan (hf : Span.KeepsMerge f) {v : VarDecl} (h : FormalClause ts v) :
    FormalClause (ts.map (·.mapSpan f)) (v.mapSpans f) := by
  cases h with
  | @mk _ _ d _ hd ha =>
    obtain ⟨t, rest, rfl, -, -⟩ := hd.exists_start
    rw [VarDecl.mapSpans, ← Token.reach_map hf (by simp)]
    simpa [Head.mapSpans] using FormalClause.mk (d := d.mapSpans f) (hd.mapSpan (f := f)) ha.mapSpan

theorem TestClause.mapSpan (hf : Span.KeepsMerge f) {e : Expr} (h : TestClause ts e) :
    TestClause (ts.map (·.mapSpan f)) (e.mapSpans f) := by
  cases h with
  | @mk o c _ _ ho he hc =>
    simpa using TestClause.mk (o := o.mapSpan f) (c := c.mapSpan f) ho (he.mapSpan hf) hc

theorem ForClause.mapSpan (hf : Span.KeepsMerge f) {init : Option ForInit} (h : ForClause ts init) :
    ForClause (ts.map (·.mapSpan f)) (init.map (ForInit.mapSpans f)) := by
  cases h with
  | @none s hs => exact .none (s := s.mapSpan f) hs
  | declare hv => exact .declare (hv.mapSpan hf)
  | @expr s _ _ he hs =>
    simpa [ForInit.mapSpans] using ForClause.expr (s := s.mapSpan f) (he.mapSpan hf) hs

theorem LabelClause.mapSpan (hf : Span.KeepsMerge f) {label : Option Expr}
    (h : LabelClause ts label) :
    LabelClause (ts.map (·.mapSpan f)) (label.map (Expr.mapSpans f)) := by
  cases h with
  | @case k c _ _ hk he hc =>
    simpa using LabelClause.case (k := k.mapSpan f) (c := c.mapSpan f) hk (he.mapSpan hf) hc
  | @default k c hk hc => exact .default (k := k.mapSpan f) (c := c.mapSpan f) hk hc

mutual

theorem StmtClause.mapSpan (hf : Span.KeepsMerge f) {dangling : Bool} {ts : List Token} {s : Stmt}
    (h : StmtClause dangling ts s) :
    StmtClause dangling (ts.map (·.mapSpan f)) (s.mapSpans f) := by
  match h with
  | .declare hv => exact .declare (hv.mapSpan hf)
  | .block (o := o) (c := c) ho hb hc =>
    rw [Stmt.mapSpans, ← Token.reach_map hf (by simp)]
    simpa using StmtClause.block (o := o.mapSpan f) (c := c.mapSpan f) ho (hb.mapSpan hf) hc
  | .empty (s := s) hs =>
    rw [Stmt.mapSpans, ← Token.reach_map hf (by simp)]
    exact .empty (s := s.mapSpan f) hs
  | .ifThen (k := k) hk ht hu =>
    rw [Stmt.mapSpans, ← Token.reach_map hf (by simp)]
    simpa using StmtClause.ifThen (k := k.mapSpan f) hk (ht.mapSpan hf) (hu.mapSpan hf)
  | .ifElse (k := k) (l := l) hk ht hu hl hv =>
    rw [Stmt.mapSpans, ← Token.reach_map hf (by simp)]
    simpa using StmtClause.ifElse (k := k.mapSpan f) (l := l.mapSpan f) hk (ht.mapSpan hf)
      (hu.mapSpan hf) hl (hv.mapSpan hf)
  | .whileLoop (k := k) hk ht hb =>
    rw [Stmt.mapSpans, ← Token.reach_map hf (by simp)]
    simpa using StmtClause.whileLoop (k := k.mapSpan f) hk (ht.mapSpan hf) (hb.mapSpan hf)
  | .forLoop (k := k) (o := o) (s := s) (c := c) hk ho hi ht hs hu hc hb =>
    rw [Stmt.mapSpans, ← Token.reach_map hf (by simp)]
    simpa using StmtClause.forLoop (k := k.mapSpan f) (o := o.mapSpan f) (s := s.mapSpan f)
      (c := c.mapSpan f) hk ho (hi.mapSpan hf) (ht.mapSpan hf) hs (hu.mapSpan hf) hc (hb.mapSpan hf)
  | .switch (k := k) (o := o) hk hv ho ha =>
    rw [Stmt.mapSpans, ← Token.reach_map hf (by simp)]
    simpa using StmtClause.switch (k := k.mapSpan f) (o := o.mapSpan f) hk (hv.mapSpan hf) ho
      (ha.mapSpan hf)
  | .breakStmt (k := k) (s := s) hk hs =>
    rw [Stmt.mapSpans, ← Token.reach_map hf (by simp)]
    exact .breakStmt (k := k.mapSpan f) (s := s.mapSpan f) hk hs
  | .continueStmt (k := k) (s := s) hk hs =>
    rw [Stmt.mapSpans, ← Token.reach_map hf (by simp)]
    exact .continueStmt (k := k.mapSpan f) (s := s.mapSpan f) hk hs
  | .returnStmt (k := k) (s := s) hk hv hs =>
    rw [Stmt.mapSpans, ← Token.reach_map hf (by simp)]
    simpa using StmtClause.returnStmt (k := k.mapSpan f) (s := s.mapSpan f) hk (hv.mapSpan hf) hs
  | .expr (s := s) he hs =>
    rw [Stmt.mapSpans, ← Token.reach_map hf (by simp)]
    simpa using StmtClause.expr (s := s.mapSpan f) (he.mapSpan hf) hs

theorem StmtsClause.mapSpan (hf : Span.KeepsMerge f) {ts : List Token} {ss : List Stmt}
    (h : StmtsClause ts ss) :
    StmtsClause (ts.map (·.mapSpan f)) (Stmt.mapAllSpans f ss) := by
  match h with
  | .nil => exact .nil
  | .cons hfirst ho =>
    simpa [Stmt.mapAllSpans] using StmtsClause.cons (hfirst.mapSpan hf) (ho.mapSpan hf)

theorem ArmsClause.mapSpan (hf : Span.KeepsMerge f) {ts : List Token}
    {arms : List (Arm (List Stmt))} (h : ArmsClause ts arms) :
    ArmsClause (ts.map (·.mapSpan f)) (Stmt.mapArmsSpans f arms) := by
  match h with
  | .nil (c := c) hc => exact .nil (c := c.mapSpan f) hc
  | .cons hl hb ho =>
    rw [Stmt.mapArmsSpans, ← Token.reach_map hf (by cases hl <;> simp)]
    simpa using ArmsClause.cons (hl.mapSpan hf) (hb.mapSpan hf) (ho.mapSpan hf)

end

theorem FormalListClause.mapSpan (hf : Span.KeepsMerge f) {vs : List VarDecl}
    (h : FormalListClause ts vs) :
    FormalListClause (ts.map (·.mapSpan f)) (vs.map (VarDecl.mapSpans f)) := by
  induction h with
  | one hv => exact .one (hv.mapSpan hf)
  | @cons o _ _ _ _ hv ho _ ih =>
    simpa using FormalListClause.cons (o := o.mapSpan f) (hv.mapSpan hf) ho ih

theorem FormalsClause.mapSpan (hf : Span.KeepsMerge f) {vs : List VarDecl}
    (h : FormalsClause ts vs) :
    FormalsClause (ts.map (·.mapSpan f)) (vs.map (VarDecl.mapSpans f)) := by
  cases h with
  | none => exact .none
  | @void k hk => exact .void (k := k.mapSpan f) hk
  | some hvs => exact .some (hvs.mapSpan hf)

theorem BlockClause.mapSpan (hf : Span.KeepsMerge f) {b : Block} (h : BlockClause ts b) :
    BlockClause (ts.map (·.mapSpan f)) (b.mapSpans f) := by
  cases h with
  | @mk o c _ _ ho hb hc =>
    rw [Block.mapSpans, ← Token.reach_map hf (by simp)]
    simpa using BlockClause.mk (o := o.mapSpan f) (c := c.mapSpan f) ho (hb.mapSpan hf) hc

/-- The spans of a declaration follow those of its tokens. -/
theorem DeclClause.mapSpan (hf : Span.KeepsMerge f) {d : Decl} (h : DeclClause ts d) :
    DeclClause (ts.map (·.mapSpan f)) (d.mapSpans f) := by
  cases h with
  | var hv => exact .var (hv.mapSpan hf)
  | @fn o c _ _ _ d _ _ hd hq ho hformals hc hb =>
    rw [Decl.mapSpans, FnDecl.mapSpans, ← Token.reach_map hf (by simp)]
    simpa [Head.mapSpans] using DeclClause.fn (o := o.mapSpan f) (c := c.mapSpan f)
      (d := d.mapSpans f) hd.mapSpan hq ho (hformals.mapSpan hf) hc (hb.mapSpan hf)

/-! ## Phrases in a clause -/

section

variable {P : Expr → Prop}

theorem OptionClause.everywhere {e : Option Expr} (h : OptionClause ts e)
    (hP : ∀ us x, us <:+: ts → Phrase .assignment us x → P x) : ∀ x ∈ e, x.Everywhere P := by
  cases h with
  | none => simp
  | some he => simpa using he.everywhere hP

theorem VarClause.everywhere {v : VarDecl} (h : VarClause ts v)
    (hP : ∀ us x, us <:+: ts → Phrase .assignment us x → P x) : v.Everywhere P := by
  cases h with
  | @mk s ts us _ _ _ _ hd ha hi hs =>
    cases hi with
    | none => simp [VarDecl.Everywhere]
    | @some o vs _ ho he =>
      have := he.everywhere fun ws x hws => hP ws x (hws.trans ⟨ts ++ (us ++ [o]), [s], by simp⟩)
      simpa [VarDecl.Everywhere] using this

theorem TestClause.everywhere {e : Expr} (h : TestClause ts e)
    (hP : ∀ us x, us <:+: ts → Phrase .assignment us x → P x) : e.Everywhere P := by
  cases h with
  | @mk o c _ _ ho he hc =>
    exact he.everywhere fun ws x hws => hP ws x (hws.trans ⟨[o], [c], by simp⟩)

theorem ForClause.everywhere {init : Option ForInit} (h : ForClause ts init)
    (hP : ∀ us x, us <:+: ts → Phrase .assignment us x → P x) : ∀ i ∈ init, i.Everywhere P := by
  cases h with
  | none => simp
  | declare hv => simpa [ForInit.Everywhere] using hv.everywhere hP
  | @expr s _ _ he hs =>
    have := he.everywhere fun ws x hws => hP ws x (hws.trans ⟨[], [s], by simp⟩)
    simpa [ForInit.Everywhere] using this

theorem LabelClause.everywhere {label : Option Expr} (h : LabelClause ts label)
    (hP : ∀ us x, us <:+: ts → Phrase .assignment us x → P x) : ∀ e ∈ label, e.Everywhere P := by
  cases h with
  | @case k c _ _ hk he hc =>
    simpa using he.everywhere fun ws x hws => hP ws x (hws.trans ⟨[k], [c], by simp⟩)
  | default => simp

mutual

theorem StmtClause.everywhere {dangling : Bool} {ts : List Token} {s : Stmt}
    (h : StmtClause dangling ts s) (hP : ∀ us x, us <:+: ts → Phrase .assignment us x → P x) :
    s.Everywhere P := by
  have inside {us : List Token} (hus : us <:+: ts) (vs : List Token) (x : Expr) (hvs : vs <:+: us)
      (hx : Phrase .assignment vs x) : P x := hP vs x (hvs.trans hus) hx
  match h with
  | .declare hv => exact hv.everywhere hP
  | .block (o := o) (c := c) _ hb _ => exact hb.everywhere (inside ⟨[o], [c], by simp⟩)
  | .empty _ | .breakStmt .. | .continueStmt .. => trivial
  | @StmtClause.ifThen k ts us _ _ _ _ ht hu =>
    exact ⟨ht.everywhere (inside ⟨[k], us, by simp⟩),
      hu.everywhere (inside ⟨k :: ts, [], by simp⟩)⟩
  | @StmtClause.ifElse k l ts us vs _ _ _ _ _ ht hu _ hv =>
    exact ⟨ht.everywhere (inside ⟨[k], us ++ l :: vs, by simp⟩),
      hu.everywhere (inside ⟨k :: ts, l :: vs, by simp⟩),
      hv.everywhere (inside ⟨k :: (ts ++ (us ++ [l])), [], by simp⟩)⟩
  | @StmtClause.whileLoop k ts us _ _ _ _ ht hb =>
    exact ⟨ht.everywhere (inside ⟨[k], us, by simp⟩),
      hb.everywhere (inside ⟨k :: ts, [], by simp⟩)⟩
  | @StmtClause.forLoop k o s c is ts us vs _ _ _ _ _ _ _ hi ht _ hu _ hb =>
    exact ⟨hi.everywhere (inside ⟨[k, o], ts ++ s :: (us ++ c :: vs), by simp⟩),
      ht.everywhere (inside ⟨k :: o :: is, s :: (us ++ c :: vs), by simp⟩),
      hu.everywhere (inside ⟨k :: o :: (is ++ (ts ++ [s])), c :: vs, by simp⟩),
      hb.everywhere (inside ⟨k :: o :: (is ++ (ts ++ s :: (us ++ [c]))), [], by simp⟩)⟩
  | @StmtClause.switch k o ts us _ _ _ hv _ ha =>
    exact ⟨hv.everywhere (inside ⟨[k], o :: us, by simp⟩),
      ha.everywhere (inside ⟨k :: (ts ++ [o]), [], by simp⟩)⟩
  | .returnStmt (k := k) (s := s) _ hv _ => exact hv.everywhere (inside ⟨[k], [s], by simp⟩)
  | .expr (s := s) he _ => exact he.everywhere (inside ⟨[], [s], by simp⟩)

theorem StmtsClause.everywhere {ts : List Token} {ss : List Stmt} (h : StmtsClause ts ss)
    (hP : ∀ us x, us <:+: ts → Phrase .assignment us x → P x) : Stmt.AllEverywhere P ss := by
  match h with
  | .nil => trivial
  | @StmtsClause.cons _ ts us _ _ hfirst ho =>
    exact ⟨hfirst.everywhere fun vs x hvs => hP vs x (hvs.trans ⟨[], us, by simp⟩),
      ho.everywhere fun vs x hvs => hP vs x (hvs.trans ⟨ts, [], by simp⟩)⟩

theorem ArmsClause.everywhere {ts : List Token} {arms : List (Arm (List Stmt))}
    (h : ArmsClause ts arms) (hP : ∀ us x, us <:+: ts → Phrase .assignment us x → P x) :
    Stmt.ArmsEverywhere P arms := by
  match h with
  | .nil _ => trivial
  | @ArmsClause.cons ts us vs _ _ _ hl hb ho =>
    exact ⟨hl.everywhere fun ws x hws => hP ws x (hws.trans ⟨[], us ++ vs, by simp⟩),
      hb.everywhere fun ws x hws => hP ws x (hws.trans ⟨ts, vs, by simp⟩),
      ho.everywhere fun ws x hws => hP ws x (hws.trans ⟨ts ++ us, [], by simp⟩)⟩

end

/-- What holds of every phrase on some of the tokens holds of every expression in a declaration. -/
theorem DeclClause.everywhere {d : Decl} (h : DeclClause ts d)
    (hP : ∀ us x, us <:+: ts → Phrase .assignment us x → P x) : d.Everywhere P := by
  cases h with
  | var hv => exact hv.everywhere hP
  | @fn o c ts us _ _ _ _ hd hq ho hformals hc hb =>
    cases hb with
    | @mk p q vs _ hp hs hq =>
      exact hs.everywhere fun ws x hws =>
        hP ws x (hws.trans ⟨ts ++ o :: (us ++ [c, p]), [q], by simp⟩)

end

/-- The tokens of each declaration stand among those of the program. -/
theorem ProgramClause.exists_mem {p : Program} (h : ProgramClause ts p) :
    ∀ d ∈ p, ∃ us, us <:+: ts ∧ DeclClause us d := by
  induction h with
  | nil => simp
  | @cons ts us d p hd _ ih =>
    refine List.forall_mem_cons.mpr ⟨⟨ts, ⟨[], us, by simp⟩, hd⟩, fun d' hd' => ?_⟩
    obtain ⟨vs, hvs, hd'⟩ := ih d' hd'
    exact ⟨vs, hvs.trans ⟨ts, [], by simp⟩, hd'⟩

/-- A declaration reaches from the first of its tokens to the last one. -/
theorem DeclClause.span_eq {d : Decl} (h : DeclClause ts d) : d.span = Token.reach ts := by
  cases h with
  | var hv => cases hv; rfl
  | fn => rfl

end Grammar

end ShaderLang
