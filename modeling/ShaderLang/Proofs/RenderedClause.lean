import Mathlib
import ShaderLang.Proofs.Clause
import ShaderLang.Proofs.RenderedPhrase

/-!
# Rendered clauses

What declarations and statements are rendered as is read as clauses again, and stands for the same
declarations and statements, but for spans (`ProgramClause.renders`). A statement that was read
keeps what it says of an `else` behind it: one that is not dangling is rendered as one that is not.
-/

namespace ShaderLang

/-! ## Agreement up to spans -/

/-- The declaration without its spans. -/
def VarDecl.unplaced (v : VarDecl) : VarDecl :=
  v.mapSpans fun _ => default

/-- What a `for` loop begins with, without its spans. -/
def ForInit.unplaced (init : ForInit) : ForInit :=
  init.mapSpans fun _ => default

/-- The statement without its spans. -/
def Stmt.unplaced (s : Stmt) : Stmt :=
  s.mapSpans fun _ => default

/-- The statements without their spans. -/
def Stmt.allUnplaced (ss : List Stmt) : List Stmt :=
  Stmt.mapAllSpans (fun _ => default) ss

/-- The arms without their spans. -/
def Stmt.armsUnplaced (arms : List (Arm (List Stmt))) : List (Arm (List Stmt)) :=
  Stmt.mapArmsSpans (fun _ => default) arms

/-- The declaration without its spans. -/
def Decl.unplaced (d : Decl) : Decl :=
  d.mapSpans fun _ => default

/-- The program without its spans. -/
def Program.unplaced (p : Program) : Program :=
  p.map Decl.unplaced

namespace Grammar

variable {ts : List Token} {e : Expr}

/-! ## Declarations of variables -/

/-- The head without its spans. -/
def Head.unplaced (d : Head) : Head :=
  d.mapSpans fun _ => default

theorem word_of_qualifier? {k : Token.Kind} {qualifier : Qualifier}
    (h : k.qualifier? = some qualifier) : .keyword qualifier.word = k := by
  cases k with
  | keyword word => cases word <;> cases h <;> rfl
  | _ => cases h

theorem HeadClause.renders {d : Head} (h : HeadClause ts d) :
    Renders Head.unplaced HeadClause (headTokens d.qualifier d.ty d.name) d := by
  cases h with
  | @plain t n target text ht hn =>
    refine ⟨by simp [headTokens, Token.Kind.isEnd], ?_⟩
    rw [headTokens, word?_of_ty? ht]
    refine .cons fun t' ht' => .single fun n' hn' => ?_
    exact ⟨_, .plain (ht' ▸ ht) hn', rfl⟩
  | @qualified q t n qualifier target text hq ht hn =>
    refine ⟨by simp [headTokens, Token.Kind.isEnd], ?_⟩
    rw [headTokens, word?_of_ty? ht]
    refine .cons fun q' hq' => .cons fun t' ht' => .single fun n' hn' => ?_
    exact ⟨_, .qualified ((hq'.trans (word_of_qualifier? hq)) ▸ hq) (ht' ▸ ht) hn', rfl⟩

/-- The type in a head is not that of an array. -/
theorem HeadClause.core_eq {d : Head} (h : HeadClause ts d) :
    d.ty.core = d.ty ∧ d.ty.suffixTokens = [] := by
  have hword {k : Token.Kind} {target : Ty} (ht : k.ty? = some target) :
      target.core = target ∧ target.suffixTokens = [] := by
    cases k with
    | keyword word => cases word <;> cases ht <;> exact ⟨rfl, rfl⟩
    | _ => cases ht
  cases h with
  | plain ht => exact hword ht
  | qualified _ ht => exact hword ht

theorem ArrayClause.renders {element target : Ty} (h : ArrayClause element ts target)
    (hcore : element.core = element ∧ element.suffixTokens = []) :
    target.core = element ∧ Renders id (ArrayClause element) target.suffixTokens target := by
  cases h with
  | none =>
    rw [hcore.2]
    exact ⟨hcore.1, solid_nil, .nil ⟨_, .none, rfl⟩⟩
  | @some o n c length ho hn hlength hc =>
    have hlength' : Int64.ofNat length.toNatClampNeg = length :=
      Int64.ofNat_toNatClampNeg length (Int64.le_of_lt hlength)
    refine ⟨rfl, by simp [Ty.suffixTokens, Token.Kind.isEnd], ?_⟩
    rw [Ty.suffixTokens, hlength']
    exact .cons fun o ho => .cons fun n hn => .single fun c hc => ⟨_, .some ho hn hlength hc, rfl⟩

theorem Phrase.wholeRenders (style : Style) (h : Phrase .assignment ts e) :
    Renders Expr.unplaced (Phrase .assignment) (e.wholeTokens style) e :=
  (h.renders style).put .whole

theorem OptionClause.renders (style : Style) {e : Option Expr} (h : OptionClause ts e) :
    Renders (Option.map Expr.unplaced) OptionClause (Expr.optionTokens style e) e := by
  cases h with
  | none => exact ⟨solid_nil, .nil ⟨_, .none, rfl⟩⟩
  | some he =>
    have hwhole := he.wholeRenders style
    exact ⟨hwhole.solid, hwhole.last fun ts e he heq => ⟨_, .some he, congrArg Option.some heq⟩⟩

theorem InitClause.renders (style : Style) {e : Option Expr} (h : InitClause ts e) :
    Renders (Option.map Expr.unplaced) InitClause (Expr.initTokens style e) e := by
  cases h with
  | none => exact ⟨solid_nil, .nil ⟨_, .none, rfl⟩⟩
  | some ho he =>
    have hwhole := he.wholeRenders style
    refine ⟨by simp [Expr.initTokens, hwhole.solid, Token.Kind.isEnd], ?_⟩
    exact .cons fun o ho => hwhole.last fun ts e he heq =>
      ⟨_, .some ho he, congrArg Option.some heq⟩

theorem VarClause.renders (style : Style) {v : VarDecl} (h : VarClause ts v) :
    Renders VarDecl.unplaced VarClause (v.tokens style) v := by
  cases h with
  | @mk s ts us vs d target init hd ha hi hs =>
    have hhead := hd.renders
    obtain ⟨hcore, harray⟩ := ha.renders hd.core_eq
    have hinit := hi.renders style
    rw [VarDecl.tokens, VarDecl.formalTokens, List.append_assoc]
    dsimp only
    rw [hcore]
    refine ⟨by simp [hhead.solid, harray.solid, hinit.solid, Token.Kind.isEnd], ?_⟩
    refine hhead.before fun ts d' hd heq =>
      harray.before fun us target' ha (htarget : target' = target) =>
      hinit.before fun vs init' hi heq' => .single fun s hs => ?_
    obtain ⟨-, hqualifier, hty, hname⟩ := Head.mk.inj heq
    refine ⟨_, .mk hd (hty ▸ ha) hi hs, ?_⟩
    change VarDecl.mk (d'.name.mapSpan _) target' d'.qualifier (init'.map Expr.unplaced) default = _
    rw [hname, htarget, hqualifier, heq']
    rfl

theorem FormalClause.renders {v : VarDecl} (h : FormalClause ts v) :
    Renders VarDecl.unplaced FormalClause v.formalTokens v := by
  cases h with
  | @mk ts us d target hd ha =>
    have hhead := hd.renders
    obtain ⟨hcore, harray⟩ := ha.renders hd.core_eq
    rw [VarDecl.formalTokens]
    dsimp only
    rw [hcore]
    refine ⟨by simp [hhead.solid, harray.solid], ?_⟩
    refine hhead.before fun ts d' hd heq =>
      harray.last fun us target' ha (htarget : target' = target) => ?_
    obtain ⟨-, hqualifier, hty, hname⟩ := Head.mk.inj heq
    refine ⟨_, .mk hd (hty ▸ ha), ?_⟩
    change VarDecl.mk (d'.name.mapSpan _) target' d'.qualifier none default = _
    rw [hname, htarget, hqualifier]
    rfl

/-! ## Statements -/

theorem TestClause.renders (style : Style) (h : TestClause ts e) :
    Renders Expr.unplaced TestClause (e.testTokens style) e := by
  cases h with
  | mk _ he _ =>
    have hwhole := he.wholeRenders style
    refine ⟨by simp [Expr.testTokens, hwhole.solid, Token.Kind.isEnd], ?_⟩
    exact .cons fun o ho => hwhole.before fun ts e he heq => .single fun c hc =>
      ⟨e, .mk ho he hc, heq⟩

theorem ForClause.renders (style : Style) {init : Option ForInit} (h : ForClause ts init) :
    Renders (Option.map ForInit.unplaced) ForClause (ForInit.tokens style init) init := by
  cases h with
  | none =>
    exact ⟨by simp [ForInit.tokens, Token.Kind.isEnd],
      .single fun s hs => ⟨Option.none, .none hs, rfl⟩⟩
  | declare hv =>
    have hvar := hv.renders style
    exact ⟨hvar.solid, hvar.last fun ts v hv heq =>
      ⟨_, .declare hv, congrArg (fun v => some (ForInit.declare v)) heq⟩⟩
  | expr he =>
    have hwhole := he.wholeRenders style
    refine ⟨by simp [ForInit.tokens, hwhole.solid, Token.Kind.isEnd], ?_⟩
    exact hwhole.before fun ts e he heq => .single fun s hs =>
      ⟨_, .expr he hs, congrArg (fun e => some (ForInit.expr e)) heq⟩

theorem LabelClause.renders (style : Style) {label : Option Expr} (h : LabelClause ts label) :
    Renders (Option.map Expr.unplaced) LabelClause (Arm.labelTokens style label) label := by
  cases h with
  | case _ he =>
    have hwhole := he.wholeRenders style
    refine ⟨by simp [Arm.labelTokens, hwhole.solid, Token.Kind.isEnd], ?_⟩
    exact .cons fun k hk => hwhole.before fun ts e he heq => .single fun c hc =>
      ⟨_, .case hk he hc, congrArg some heq⟩
  | default =>
    exact ⟨by simp [Arm.labelTokens, Token.Kind.isEnd],
      .cons fun k hk => .single fun c hc => ⟨none, .default hk hc, rfl⟩⟩

mutual

/-- A statement that was read is rendered by its tokens, and is dangling again if it was. -/
theorem StmtClause.renders (style : Style) {dangling : Bool} {ts : List Token} {s : Stmt}
    (h : StmtClause dangling ts s) :
    Renders Stmt.unplaced (StmtClause dangling) (s.tokens style) s := by
  match h with
  | .declare hv =>
    have hvar := hv.renders style
    exact ⟨hvar.solid, hvar.last fun ts v hv heq => ⟨_, .declare hv, congrArg Stmt.declare heq⟩⟩
  | .block _ hb _ =>
    have hbody := hb.renders style
    refine ⟨by simp [Stmt.tokens, hbody.solid, Token.Kind.isEnd], ?_⟩
    refine .cons fun o ho => hbody.before fun ts body hb heq => .single fun c hc => ?_
    exact ⟨_, .block ho hb hc, congrArg (Stmt.block default) heq⟩
  | .empty _ =>
    exact ⟨by simp [Stmt.tokens, Token.Kind.isEnd], .single fun s hs => ⟨_, .empty hs, rfl⟩⟩
  | .ifThen _ ht hu =>
    have htest := ht.renders style
    have htrue := hu.renders style
    refine ⟨by simp [Stmt.tokens, htest.solid, htrue.solid, Token.Kind.isEnd], ?_⟩
    refine .cons fun k hk => htest.before fun ts t ht heq => htrue.last fun us u hu heq' => ?_
    exact ⟨_, .ifThen hk ht hu, congrArg₂ (Stmt.ifThen default) heq heq'⟩
  | .ifElse _ ht hu _ hv =>
    -- What stands in front of the `else` is not dangling, and is not when it is read again.
    have htest := ht.renders style
    have htrue := hu.renders style
    have hfalse := hv.renders style
    refine ⟨by simp [Stmt.tokens, htest.solid, htrue.solid, hfalse.solid, Token.Kind.isEnd], ?_⟩
    refine .cons fun k hk => htest.before fun ts t ht heq => htrue.before fun us u hu heq' =>
      .cons fun l hl => hfalse.last fun vs v hv heq'' => ?_
    refine ⟨_, .ifElse hk ht hu hl hv, ?_⟩
    change Stmt.ifElse default t.unplaced u.unplaced v.unplaced = _
    rw [heq, heq', heq'']
    rfl
  | .whileLoop _ ht hb =>
    have htest := ht.renders style
    have hbody := hb.renders style
    refine ⟨by simp [Stmt.tokens, htest.solid, hbody.solid, Token.Kind.isEnd], ?_⟩
    refine .cons fun k hk => htest.before fun ts t ht heq => hbody.last fun us b hb heq' => ?_
    exact ⟨_, .whileLoop hk ht hb, congrArg₂ (Stmt.whileLoop default) heq heq'⟩
  | .forLoop _ _ hi ht _ hu _ hb =>
    have hinit := hi.renders style
    have htest := ht.renders style
    have hstep := hu.renders style
    have hbody := hb.renders style
    refine ⟨by simp [Stmt.tokens, hinit.solid, htest.solid, hstep.solid, hbody.solid,
      Token.Kind.isEnd], ?_⟩
    refine .cons fun k hk => .cons fun o ho => hinit.before fun is i hi hi' =>
      htest.before fun ts t ht ht' => .cons fun s hs => hstep.before fun us u hu hu' =>
      .cons fun c hc => hbody.last fun vs b hb hb' => ?_
    refine ⟨_, .forLoop hk ho hi ht hs hu hc hb, ?_⟩
    change Stmt.forLoop default (i.map ForInit.unplaced) (t.map Expr.unplaced)
      (u.map Expr.unplaced) b.unplaced = _
    rw [hi', ht', hu', hb']
    rfl
  | .switch _ hv _ ha =>
    have hvalue := hv.renders style
    have harms := ha.renders style
    refine ⟨by simp [Stmt.tokens, hvalue.solid, harms.solid, Token.Kind.isEnd], ?_⟩
    refine .cons fun k hk => hvalue.before fun ts v hv heq => .cons fun o ho =>
      harms.last fun us arms ha heq' => ?_
    exact ⟨_, .switch hk hv ho ha, congrArg₂ (Stmt.switch default) heq heq'⟩
  | .breakStmt .. =>
    exact ⟨by simp [Stmt.tokens, Token.Kind.isEnd],
      .cons fun k hk => .single fun s hs => ⟨_, .breakStmt hk hs, rfl⟩⟩
  | .continueStmt .. =>
    exact ⟨by simp [Stmt.tokens, Token.Kind.isEnd],
      .cons fun k hk => .single fun s hs => ⟨_, .continueStmt hk hs, rfl⟩⟩
  | .returnStmt _ hv _ =>
    have hvalue := hv.renders style
    refine ⟨by simp [Stmt.tokens, hvalue.solid, Token.Kind.isEnd], ?_⟩
    refine .cons fun k hk => hvalue.before fun ts v hv heq => .single fun s hs => ?_
    exact ⟨_, .returnStmt hk hv hs, congrArg (Stmt.returnStmt default) heq⟩
  | .expr he _ =>
    have hwhole := he.wholeRenders style
    refine ⟨by simp [Stmt.tokens, hwhole.solid, Token.Kind.isEnd], ?_⟩
    refine hwhole.before fun ts e he heq => .single fun s hs => ?_
    exact ⟨_, .expr he hs, congrArg (Stmt.expr default) heq⟩

theorem StmtsClause.renders (style : Style) {ts : List Token} {ss : List Stmt}
    (h : StmtsClause ts ss) :
    Renders Stmt.allUnplaced StmtsClause (Stmt.allTokens style ss) ss := by
  match h with
  | .nil => exact ⟨solid_nil, .nil ⟨_, .nil, rfl⟩⟩
  | .cons hf ho =>
    have hfirst := hf.renders style
    have hothers := ho.renders style
    refine ⟨by simp [Stmt.allTokens, hfirst.solid, hothers.solid], ?_⟩
    exact hfirst.before fun ts s hf heq => hothers.last fun us ss ho heq' =>
      ⟨_, .cons hf ho, congrArg₂ List.cons heq heq'⟩

theorem ArmsClause.renders (style : Style) {ts : List Token} {arms : List (Arm (List Stmt))}
    (h : ArmsClause ts arms) :
    Renders Stmt.armsUnplaced ArmsClause (Stmt.armsTokens style arms) arms := by
  match h with
  | .nil _ =>
    exact ⟨by simp [Stmt.armsTokens, Token.Kind.isEnd], .single fun c hc => ⟨_, .nil hc, rfl⟩⟩
  | .cons hl hb ho =>
    have hlabel := hl.renders style
    have hbody := hb.renders style
    have hothers := ho.renders style
    refine ⟨by simp [Stmt.armsTokens, hlabel.solid, hbody.solid, hothers.solid], ?_⟩
    refine hlabel.before fun ts l hl heq => hbody.before fun us b hb heq' =>
      hothers.last fun vs arms ho heq'' => ?_
    exact ⟨_, .cons hl hb ho,
      congrArg₂ List.cons (congrArg₂ (Arm.mk · · default) heq heq') heq''⟩

end

/-! ## Programs -/

theorem FormalListClause.renders {vs : List VarDecl} (h : FormalListClause ts vs) :
    Renders (List.map VarDecl.unplaced) FormalListClause (VarDecl.formalsTokens vs) vs := by
  induction h with
  | one hv =>
    have hone := hv.renders
    exact ⟨hone.solid, hone.last fun ts v hv heq => ⟨[v], .one hv, congrArg (· :: []) heq⟩⟩
  | @cons _ _ _ _ vs hv _ hvs ih =>
    have hfirst := hv.renders
    obtain ⟨w, rest, rfl⟩ : ∃ w rest, vs = w :: rest := by cases hvs <;> exact ⟨_, _, rfl⟩
    refine ⟨by simp [VarDecl.formalsTokens, hfirst.solid, ih.solid, Token.Kind.isEnd], ?_⟩
    refine hfirst.before fun ts v hv heq => .cons fun o ho => ih.last fun us vs hvs heq' => ?_
    exact ⟨v :: vs, .cons hv ho hvs, congrArg₂ List.cons heq heq'⟩

theorem FormalsClause.renders {vs : List VarDecl} (h : FormalsClause ts vs) :
    Renders (List.map VarDecl.unplaced) FormalsClause (VarDecl.formalsTokens vs) vs := by
  cases h with
  -- Both `()` and `(void)` are rendered as `()`.
  | none | void => exact ⟨solid_nil, .nil ⟨[], .none, rfl⟩⟩
  | some hvs =>
    have hall := hvs.renders
    exact ⟨hall.solid, hall.last fun ts vs hvs heq => ⟨vs, .some hvs, heq⟩⟩

theorem DeclClause.renders (style : Style) {d : Decl} (h : DeclClause ts d) :
    Renders Decl.unplaced DeclClause (d.tokens style) d := by
  cases h with
  | var hv =>
    have hvar := hv.renders style
    exact ⟨hvar.solid, hvar.last fun ts v hv heq => ⟨_, .var hv, congrArg Decl.var heq⟩⟩
  | @fn _ _ _ _ _ d formals body hd hq _ hf _ hb =>
    have hhead := hd.renders
    have hformals := hf.renders
    obtain ⟨_, hstmts, _⟩ := hb
    have hbody := hstmts.renders style
    rw [hq] at hhead
    rw [Decl.tokens, FnDecl.tokens]
    refine ⟨by simp [hhead.solid, hformals.solid, hbody.solid, Token.Kind.isEnd], ?_⟩
    refine hhead.before fun ts d' hd heq => .cons fun o ho => hformals.before fun us fs hf heq' =>
      .cons fun c hc => .cons fun p hp => hbody.before fun vs b hb heq'' => .single fun q hq' => ?_
    obtain ⟨-, hqualifier, hty, hname⟩ := Head.mk.inj heq
    refine ⟨_, .fn hd (hqualifier.trans hq) ho hf hc (.mk hp hb hq'), ?_⟩
    change Decl.fn ⟨d'.name.mapSpan _, d'.ty, fs.map VarDecl.unplaced,
      ⟨Stmt.allUnplaced b, default⟩, default⟩ = _
    rw [hname, hty, heq', heq'']
    rfl

/-- A program that was read is rendered by its tokens. -/
theorem ProgramClause.renders (style : Style) {p : Program} (h : ProgramClause ts p) :
    Renders Program.unplaced ProgramClause (p.tokens style) p := by
  induction h with
  | nil => exact ⟨solid_nil, .nil ⟨[], .nil, rfl⟩⟩
  | @cons _ _ d p hd _ ih =>
    have hfirst := hd.renders style
    have htokens : Program.tokens style (d :: p) = d.tokens style ++ Program.tokens style p := rfl
    rw [htokens]
    refine ⟨by simp [hfirst.solid, ih.solid], ?_⟩
    exact hfirst.before fun ts d hd heq => ih.last fun us p hp heq' =>
      ⟨d :: p, .cons hd hp, congrArg₂ List.cons heq heq'⟩

end Grammar

end ShaderLang
