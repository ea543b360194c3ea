import ShaderLang.Proofs.Script

/-!
# Guarded scripts

Two things could keep a rule of the grammar from ending: that it goes on taking the end of the text,
of which there is always more, and that it calls itself, or a rule that calls it, without a token
in between. Whether it does can be seen from its script. A script is guarded (`Script.Guarded`)
when, whatever the tokens are, it fails as soon as it has taken the end of the text, and calls only
rules of a lower level until it has taken a token. Every rule of the grammar is (`Rule.keeps`), and
that is all there is to show of the single rules.
-/

namespace ShaderLang.Grammar

/-- How far the script of a rule has come. -/
inductive Progress where
  /-- It stands in front of a token, and has taken others before or none yet. -/
  | facing (taken : Bool) (token : Token)
  /-- It has taken the end of the text. -/
  | pastEnd

/-- Where a rule may succeed: in front of a token, and behind another one unless it may find nothing
to read. -/
def Rule.Ends (rule : Rule) : Progress → Prop
  | .facing taken _ => rule.consumes = true → taken = true
  | .pastEnd => False

theorem Rule.ends_of_consumes_eq_false {rule : Rule} {taken : Bool} {token : Token}
    (h : rule.consumes = false) : rule.Ends (.facing taken token) :=
  fun hconsumes => absurd (h.symm.trans hconsumes) Bool.false_ne_true

namespace Script

variable {α β : Type}

/-- Whatever the tokens are, this script of a rule is guarded as it goes on, and where it ends with
a value `Q` holds. -/
def Guarded (rule : Rule) (Q : Progress → α → Prop) : Progress → Script α → Prop
  | p, done value => Q p value
  | _, fail _ => True
  | .facing taken token, look next =>
    ∀ previous, Guarded rule Q (.facing taken token) (next token previous)
  | .pastEnd, look next => ∀ token previous, Guarded rule Q .pastEnd (next token previous)
  | p, peek next => ∀ kind, Guarded rule Q p (next kind)
  | .facing _ token, take next =>
    if token.kind.isEnd then Guarded rule Q .pastEnd (next token)
    else ∀ behind, Guarded rule Q (.facing true behind) (next token)
  | .pastEnd, take _ => False
  | .facing taken _, call callee next =>
    (taken = true ∨ callee.level < rule.level) ∧
      ∀ value behind, Guarded rule Q (.facing (taken || callee.consumes) behind) (next value)
  | .pastEnd, call _ _ => False

variable {rule : Rule} {Q : Progress → α → Prop} {R : Progress → β → Prop} {p : Progress}
  {taken : Bool} {token : Token}

@[simp]
theorem guarded_pure {value : α} : (pure value : Script α).Guarded rule Q p ↔ Q p value := by
  cases p <;> rfl

@[simp]
theorem guarded_fail {failure : Failure} : (fail failure : Script α).Guarded rule Q p := by
  cases p <;> trivial

theorem guarded_take {next : Token → Script α} :
    (take next).Guarded rule Q (.facing taken token) ↔
      if token.kind.isEnd then (next token).Guarded rule Q .pastEnd
      else ∀ behind, (next token).Guarded rule Q (.facing true behind) :=
  Iff.rfl

/-- Either the end of the text is taken, or another token. -/
theorem Guarded.take {next : Token → Script α}
    (h : (Script.take next).Guarded rule Q (.facing taken token)) :
    (token.kind.isEnd = true ∧ (next token).Guarded rule Q .pastEnd) ∨
      (token.kind.isEnd = false ∧
        ∀ behind, (next token).Guarded rule Q (.facing true behind)) := by
  rw [guarded_take] at h
  split at h
  · next hend => exact .inl ⟨hend, h⟩
  · next hend => exact .inr ⟨by simpa using hend, h⟩

/-- Scripts one behind the other are guarded if the first one is and leaves the second one so. -/
theorem guarded_bind {m : Script α} {f : α → Script β} :
    (m >>= f).Guarded rule R p ↔ m.Guarded rule (fun p value => (f value).Guarded rule R p) p := by
  induction m generalizing p with
  | done value => cases p <;> rfl
  | fail failure => cases p <;> rfl
  | look next ih =>
    cases p with
    | facing taken token => exact forall_congr' fun _ => ih ..
    | pastEnd => exact forall_congr' fun _ => forall_congr' fun _ => ih ..
  | peek next ih => cases p <;> exact forall_congr' fun _ => ih _
  | take next ih =>
    cases p with
    | facing taken token =>
      refine guarded_take.trans (Iff.trans ?_ guarded_take.symm)
      split
      · exact ih token
      · exact forall_congr' fun _ => ih token
    | pastEnd => rfl
  | call callee next ih =>
    cases p with
    | facing taken token =>
      exact and_congr_right fun _ => forall_congr' fun value => forall_congr' fun _ => ih value
    | pastEnd => rfl

/-- The token in front is taken first, whichever it is. -/
theorem guarded_advance_iff {Q : Progress → Token → Prop} :
    advance.Guarded rule Q (.facing taken token) ↔
      if token.kind.isEnd then Q .pastEnd token else ∀ behind, Q (.facing true behind) token :=
  guarded_take

theorem guarded_here {Q : Progress → Token → Prop} :
    here.Guarded rule Q (.facing taken token) ↔ Q (.facing taken token) token :=
  forall_const Span

theorem guarded_isAt {Q : Progress → Bool → Prop} {m : Mark} :
    (isAt m).Guarded rule Q (.facing taken token) ↔
      Q (.facing taken token) (token.kind.isMark m) :=
  forall_const Span

theorem guarded_isAtWord {Q : Progress → Bool → Prop} {word : Keyword} :
    (isAtWord word).Guarded rule Q (.facing taken token) ↔
      Q (.facing taken token) (token.kind.isKeyword word) :=
  forall_const Span

theorem guarded_spanFrom {Q : Progress → Span → Prop} {start : Span}
    (h : ∀ span, Q (.facing taken token) span) :
    (spanFrom start).Guarded rule Q (.facing taken token) :=
  fun _ => h _

/-- A call of a lower rule. -/
theorem guarded_call {callee : Rule} {Q : Progress → callee.Value → Prop}
    (hlevel : callee.level < rule.level)
    (h : ∀ value behind, Q (.facing (taken || callee.consumes) behind) value) :
    (call callee pure).Guarded rule Q (.facing taken token) :=
  ⟨.inr hlevel, h⟩

/-- A call of any rule, behind a token. -/
theorem guarded_call_behind {callee : Rule} {Q : Progress → callee.Value → Prop}
    (h : ∀ value behind, Q (.facing true behind) value) :
    (call callee pure).Guarded rule Q (.facing true token) :=
  ⟨.inl rfl, h⟩

/-! ## Taking a token -/

/-- What makes nothing of the end of the text makes something of other tokens only. -/
theorem isEnd_of_eq_some {kind : Token.Kind} {value : β} {f : Token.Kind → Option β}
    (h : f kind = some value) (hend : f .endOfText = none) : kind.isEnd = false := by
  cases kind with
  | endOfText =>
    rw [hend] at h
    cases h
  | _ => rfl

theorem isEnd_of_isMark {kind : Token.Kind} {m : Mark} (h : kind.isMark m = true) :
    kind.isEnd = false := by
  cases kind with
  | endOfText => cases h
  | _ => rfl

theorem isEnd_of_isKeyword {kind : Token.Kind} {word : Keyword} (h : kind.isKeyword word = true) :
    kind.isEnd = false := by
  cases kind with
  | endOfText => cases h
  | _ => rfl

theorem guarded_advance {Q : Progress → Token → Prop} (hend : token.kind.isEnd = false)
    (h : ∀ behind, Q (.facing true behind) token) :
    advance.Guarded rule Q (.facing taken token) := by
  rw [guarded_advance_iff, if_neg (by simp [hend])]
  exact h

theorem guarded_expect {Q : Progress → Token → Prop} {m : Mark}
    (h : ∀ found behind, Q (.facing true behind) found) :
    (expect m).Guarded rule Q (.facing taken token) := by
  rw [expect, guarded_bind, guarded_here]
  split
  · next hmark => exact guarded_advance (isEnd_of_isMark hmark) (h token)
  · exact guarded_fail

/-- What makes nothing of the end of the text fails once it has taken it. -/
theorem guarded_choose {wanted : Wanted} {f : Token → Option α}
    (hf : ∀ token, token.kind.isEnd = true → f token = none)
    (h : ∀ value behind, Q (.facing true behind) value) :
    (choose wanted f).Guarded rule Q (.facing taken token) := by
  rw [choose, guarded_bind, guarded_advance_iff]
  split
  · next hend =>
    rw [hf token hend]
    exact guarded_fail
  · intro behind
    split
    · exact guarded_pure.mpr (h _ behind)
    · exact guarded_fail

theorem guarded_ident {Q : Progress → Ident → Prop}
    (h : ∀ name behind, Q (.facing true behind) name) :
    ident.Guarded rule Q (.facing taken token) := by
  refine guarded_choose (fun token hend => ?_) h
  split
  · next hname => simp [hname, Token.Kind.isEnd] at hend
  · rfl

/-! ## Variables and types -/

theorem guarded_qualifier {Q : Progress → Option Qualifier → Prop}
    (hnone : Q (.facing taken token) none)
    (hsome : ∀ q behind, Q (.facing true behind) (some q)) :
    qualifier.Guarded rule Q (.facing taken token) := by
  rw [qualifier, guarded_bind, guarded_here]
  split
  · next q hq =>
    rw [guarded_bind]
    refine guarded_advance (isEnd_of_eq_some hq rfl) fun behind => ?_
    exact guarded_pure.mpr (hsome q behind)
  · exact guarded_pure.mpr hnone

theorem guarded_ty {Q : Progress → Ty → Prop} (h : ∀ t behind, Q (.facing true behind) t) :
    ty.Guarded rule Q (.facing taken token) := by
  rw [ty, guarded_bind, guarded_here]
  split
  · next t ht =>
    rw [guarded_bind]
    refine guarded_advance (isEnd_of_eq_some ht rfl) fun behind => ?_
    exact guarded_pure.mpr (h t behind)
  · exact guarded_fail

theorem guarded_arrayLength {Q : Progress → Nat → Prop}
    (h : ∀ n behind, Q (.facing true behind) n) :
    arrayLength.Guarded rule Q (.facing taken token) := by
  refine guarded_choose (fun token hend => ?_) h
  split
  · next hint => simp [hint, Token.Kind.isEnd] at hend
  · rfl

theorem guarded_arraySuffix {element : Ty} {Q : Progress → Ty → Prop}
    (h : ∀ t behind, Q (.facing true behind) t) :
    (arraySuffix element).Guarded rule Q (.facing true token) := by
  rw [arraySuffix, guarded_bind, guarded_isAt]
  split
  · next hmark =>
    simp only [guarded_bind]
    refine guarded_advance (isEnd_of_isMark hmark) fun _ => ?_
    refine guarded_arrayLength fun length _ => ?_
    refine guarded_expect fun _ behind => ?_
    exact guarded_pure.mpr (h _ behind)
  · exact guarded_pure.mpr (h element token)

theorem guarded_head {Q : Progress → Head → Prop} (h : ∀ d behind, Q (.facing true behind) d) :
    head.Guarded rule Q (.facing taken token) := by
  -- the type is taken wherever it stands, behind a qualifier or not
  have hrest : ∀ {taken : Bool} {here : Token} (start : Span) (q : Option Qualifier),
      (ty >>= fun t => ident >>= fun name => pure (Head.mk start q t name)).Guarded rule Q
        (.facing taken here) := by
    intro taken here start q
    simp only [guarded_bind]
    refine guarded_ty fun t _ => ?_
    refine guarded_ident fun name behind => ?_
    exact guarded_pure.mpr (h _ behind)
  rw [head, guarded_bind, guarded_here, guarded_bind]
  exact guarded_qualifier (hrest _ _) fun q _ => hrest _ _

theorem guarded_initializer {Q : Progress → Option Expr → Prop}
    (h : ∀ init behind, Q (.facing true behind) init) :
    initializer.Guarded rule Q (.facing true token) := by
  rw [initializer, guarded_bind, guarded_isAt]
  split
  · next hmark =>
    simp only [guarded_bind]
    refine guarded_advance (isEnd_of_isMark hmark) fun _ => ?_
    refine guarded_call_behind fun e behind => ?_
    exact guarded_pure.mpr (h _ behind)
  · exact guarded_pure.mpr (h none token)

theorem guarded_varRest {d : Head} {Q : Progress → VarDecl → Prop}
    (h : ∀ v behind, Q (.facing true behind) v) :
    (varRest d).Guarded rule Q (.facing true token) := by
  simp only [varRest, guarded_bind]
  refine guarded_arraySuffix fun t _ => ?_
  refine guarded_initializer fun init _ => ?_
  refine guarded_expect fun _ behind => ?_
  exact guarded_spanFrom fun _ => guarded_pure.mpr (h _ behind)

theorem guarded_varDecl {Q : Progress → VarDecl → Prop}
    (h : ∀ v behind, Q (.facing true behind) v) :
    varDecl.Guarded rule Q (.facing taken token) := by
  rw [varDecl, guarded_bind]
  exact guarded_head fun d _ => guarded_varRest h

theorem guarded_formal {Q : Progress → VarDecl → Prop}
    (h : ∀ v behind, Q (.facing true behind) v) :
    formal.Guarded rule Q (.facing taken token) := by
  simp only [formal, guarded_bind]
  refine guarded_head fun d _ => ?_
  refine guarded_arraySuffix fun t behind => ?_
  exact guarded_spanFrom fun _ => guarded_pure.mpr (h _ behind)

/-! ## Parts of statements -/

theorem guarded_atDeclaration {Q : Progress → Bool → Prop} (h : ∀ b, Q (.facing taken token) b) :
    atDeclaration.Guarded rule Q (.facing taken token) := by
  rw [atDeclaration, guarded_bind, guarded_here]
  split
  · exact guarded_pure.mpr (h true)
  · split
    · exact fun kind => guarded_pure.mpr (h _)
    · exact guarded_pure.mpr (h false)

theorem guarded_exprUnless {m : Mark} {Q : Progress → Option Expr → Prop}
    (h : ∀ e behind, Q (.facing true behind) e) :
    (exprUnless m).Guarded rule Q (.facing true token) := by
  rw [exprUnless, guarded_bind, guarded_isAt]
  split
  · exact guarded_pure.mpr (h none token)
  · rw [guarded_bind]
    refine guarded_call_behind fun e behind => ?_
    exact guarded_pure.mpr (h _ behind)

theorem guarded_test {Q : Progress → Expr → Prop} (h : ∀ e behind, Q (.facing true behind) e) :
    test.Guarded rule Q (.facing taken token) := by
  simp only [test, guarded_bind]
  refine guarded_expect fun _ _ => ?_
  refine guarded_call_behind fun e _ => ?_
  refine guarded_expect fun _ behind => ?_
  exact guarded_pure.mpr (h e behind)

theorem guarded_forInit {Q : Progress → Option ForInit → Prop}
    (h : ∀ init behind, Q (.facing true behind) init) :
    forInit.Guarded rule Q (.facing true token) := by
  rw [forInit, guarded_bind, guarded_isAt]
  split
  · rw [guarded_bind]
    refine guarded_expect fun _ behind => ?_
    exact guarded_pure.mpr (h none behind)
  · rw [guarded_bind]
    refine guarded_atDeclaration fun declares => ?_
    split <;> simp only [guarded_bind]
    · refine guarded_varDecl fun v behind => ?_
      exact guarded_pure.mpr (h _ behind)
    · refine guarded_call_behind fun e _ => ?_
      refine guarded_expect fun _ behind => ?_
      exact guarded_pure.mpr (h _ behind)

theorem guarded_label {Q : Progress → Option Expr → Prop}
    (h : ∀ e behind, Q (.facing true behind) e) : label.Guarded rule Q (.facing taken token) := by
  rw [label, guarded_bind, guarded_isAtWord]
  split
  · next hword =>
    simp only [guarded_bind]
    refine guarded_advance (isEnd_of_isKeyword hword) fun _ => ?_
    refine guarded_call_behind fun e _ => ?_
    refine guarded_expect fun _ behind => ?_
    exact guarded_pure.mpr (h _ behind)
  · rw [guarded_bind, guarded_isAtWord]
    split
    · next hword =>
      simp only [guarded_bind]
      refine guarded_advance (isEnd_of_isKeyword hword) fun _ => ?_
      refine guarded_expect fun _ behind => ?_
      exact guarded_pure.mpr (h none behind)
    · rw [guarded_bind, guarded_here]
      exact guarded_fail

/-! ## Parts of declarations -/

theorem guarded_formals {Q : Progress → List VarDecl → Prop}
    (h : ∀ vs behind, Q (.facing true behind) vs) :
    formals.Guarded rule Q (.facing true token) := by
  rw [formals, guarded_bind, guarded_isAt]
  split
  · exact guarded_pure.mpr (h [] token)
  · rw [guarded_bind, guarded_isAtWord]
    split
    · next hword =>
      intro kind
      dsimp only
      split
      · refine guarded_bind.mpr (guarded_advance (isEnd_of_isKeyword hword) fun behind => ?_)
        exact guarded_pure.mpr (h [] behind)
      · exact guarded_call_behind h
    · exact guarded_call_behind h

theorem guarded_fnRest {d : Head} {Q : Progress → FnDecl → Prop}
    (h : ∀ f behind, Q (.facing true behind) f) :
    (fnRest d).Guarded rule Q (.facing true token) := by
  simp only [fnRest, guarded_bind]
  refine guarded_expect fun _ _ => ?_
  refine guarded_formals fun formals _ => ?_
  refine guarded_expect fun _ _ => ?_
  refine guarded_call_behind fun body behind => ?_
  exact guarded_spanFrom fun _ => guarded_pure.mpr (h _ behind)

theorem guarded_decl {Q : Progress → Decl → Prop} (h : ∀ d behind, Q (.facing true behind) d) :
    decl.Guarded rule Q (.facing taken token) := by
  rw [decl, guarded_bind]
  refine guarded_head fun d behind => ?_
  rw [guarded_bind, guarded_isAt]
  split
  · split
    · exact guarded_fail
    · rw [guarded_bind]
      refine guarded_fnRest fun f behind => ?_
      exact guarded_pure.mpr (h _ behind)
  · rw [guarded_bind]
    refine guarded_varRest fun v behind => ?_
    exact guarded_pure.mpr (h _ behind)

end Script

/-! ## The rules

A rule is guarded from the place where nothing is taken yet. Until the first token is taken it calls
lower rules only, and from then on any. -/

/-- A script does what the rule may do: it is guarded, and ends where the rule may. -/
def Rule.Keeps (rule : Rule) (m : Script rule.Value) : Prop :=
  ∀ token, m.Guarded rule (fun p _ => rule.Ends p) (.facing false token)

namespace Rule

open Script

theorem expr_keeps : expr.Keeps Script.expr := by
  intro token
  rw [Script.expr, guarded_bind]
  refine guarded_call (by decide) fun target behind => ?_
  rw [guarded_bind, guarded_here]
  split
  · exact guarded_pure.mpr fun _ => rfl
  · next op hop =>
    simp only [guarded_bind]
    refine guarded_advance (isEnd_of_eq_some hop rfl) fun _ => ?_
    refine guarded_call_behind fun value _ => ?_
    exact guarded_pure.mpr fun _ => rfl

theorem conditional_keeps : conditional.Keeps Script.conditional := by
  intro token
  rw [Script.conditional, guarded_bind]
  refine guarded_call (by decide) fun test behind => ?_
  rw [guarded_bind, guarded_isAt]
  split
  · next hmark =>
    simp only [guarded_bind]
    refine guarded_advance (isEnd_of_isMark hmark) fun _ => ?_
    refine guarded_call_behind fun ifTrue _ => ?_
    refine guarded_expect fun _ _ => ?_
    refine guarded_call_behind fun ifFalse _ => ?_
    exact guarded_pure.mpr fun _ => rfl
  · exact guarded_pure.mpr fun _ => rfl

theorem binary_keeps (level : Nat) : (binary level).Keeps (Script.binary level) := by
  intro token
  rw [Script.binary, guarded_bind]
  refine guarded_call (Nat.lt_succ_self 3) fun left _ => ?_
  exact guarded_call_behind fun _ _ _ => rfl

theorem operators_keeps (level : Nat) (left : Expr) :
    (operators level left).Keeps (Script.operators level left) := by
  intro token
  rw [Script.operators, guarded_bind, guarded_here]
  split
  · exact guarded_pure.mpr (ends_of_consumes_eq_false rfl)
  · next op hop =>
    split
    · exact guarded_pure.mpr (ends_of_consumes_eq_false rfl)
    · simp only [guarded_bind]
      refine guarded_advance (isEnd_of_eq_some hop rfl) fun _ => ?_
      refine guarded_call_behind fun right _ => ?_
      exact guarded_call_behind fun _ _ => ends_of_consumes_eq_false rfl

theorem unary_keeps : unary.Keeps Script.unary := by
  intro token
  rw [Script.unary, guarded_bind, guarded_here]
  split
  · exact guarded_call (by decide) fun _ _ _ => rfl
  · next op hop =>
    simp only [guarded_bind]
    refine guarded_advance (isEnd_of_eq_some hop rfl) fun _ => ?_
    refine guarded_call_behind fun operand _ => ?_
    exact guarded_pure.mpr fun _ => rfl

theorem suffixed_keeps : suffixed.Keeps Script.suffixed := by
  intro token
  rw [Script.suffixed, guarded_bind]
  refine guarded_call (by decide) fun base _ => ?_
  exact guarded_call_behind fun _ _ _ => rfl

theorem suffixes_keeps (base : Expr) : (suffixes base).Keeps (Script.suffixes base) := by
  intro token
  rw [Script.suffixes, guarded_bind, guarded_isAt]
  split
  · next hmark =>
    simp only [guarded_bind]
    refine guarded_advance (isEnd_of_isMark hmark) fun _ => ?_
    refine guarded_call_behind fun position _ => ?_
    refine guarded_expect fun _ _ => ?_
    refine guarded_spanFrom fun span => ?_
    exact guarded_call_behind fun _ _ => ends_of_consumes_eq_false rfl
  · rw [guarded_bind, guarded_isAt]
    split
    · next hmark =>
      simp only [guarded_bind]
      refine guarded_advance (isEnd_of_isMark hmark) fun _ => ?_
      refine guarded_ident fun name _ => ?_
      exact guarded_call_behind fun _ _ => ends_of_consumes_eq_false rfl
    · rw [guarded_bind, guarded_here]
      split
      · exact guarded_pure.mpr (ends_of_consumes_eq_false rfl)
      · next direction hstep =>
        simp only [guarded_bind]
        refine guarded_advance (isEnd_of_eq_some hstep rfl) fun _ => ?_
        refine guarded_spanFrom fun span => ?_
        exact guarded_call_behind fun _ _ => ends_of_consumes_eq_false rfl

/-- The end of the text is taken like any other token, and is no expression. -/
theorem primary_keeps : primary.Keeps Script.primary := by
  intro token
  rw [Script.primary, guarded_bind, guarded_advance_iff]
  split
  · next hend =>
    obtain ⟨kind, span⟩ := token
    cases kind with
    | endOfText => exact guarded_fail
    | _ => cases hend
  · intro behind
    split <;> try simp only [guarded_bind]
    -- literals
    iterate 4 exact guarded_spanFrom fun _ => guarded_pure.mpr fun _ => rfl
    -- a reserved word, which begins a constructor if it names a type
    · split
      · rw [guarded_bind]
        refine guarded_call_behind fun arguments _ => ?_
        exact guarded_bind.mpr (guarded_spanFrom fun _ => guarded_pure.mpr fun _ => rfl)
      · exact guarded_fail
    -- a name, which begins a call if a parenthesis stands behind it
    · rw [guarded_isAt]
      split <;> simp only [guarded_bind]
      · refine guarded_call_behind fun arguments _ => ?_
        exact guarded_spanFrom fun _ => guarded_pure.mpr fun _ => rfl
      · exact guarded_spanFrom fun _ => guarded_pure.mpr fun _ => rfl
    -- an expression in parentheses
    · refine guarded_call_behind fun inner _ => ?_
      refine guarded_expect fun _ _ => ?_
      exact guarded_spanFrom fun _ => guarded_pure.mpr fun _ => rfl
    · exact guarded_fail

theorem arguments_keeps : arguments.Keeps Script.arguments := by
  intro token
  rw [Script.arguments, guarded_bind]
  refine guarded_expect fun _ behind => ?_
  rw [guarded_bind, guarded_isAt]
  split <;> simp only [guarded_bind]
  · refine guarded_expect fun _ _ => ?_
    exact guarded_pure.mpr fun _ => rfl
  · refine guarded_call_behind fun arguments _ => ?_
    refine guarded_expect fun _ _ => ?_
    exact guarded_pure.mpr fun _ => rfl

theorem commaList_keeps : commaList.Keeps Script.commaList := by
  intro token
  rw [Script.commaList, guarded_bind]
  refine guarded_call (by decide) fun first behind => ?_
  rw [guarded_bind, guarded_isAt]
  split
  · next hmark =>
    simp only [guarded_bind]
    refine guarded_advance (isEnd_of_isMark hmark) fun _ => ?_
    refine guarded_call_behind fun others _ => ?_
    exact guarded_pure.mpr fun _ => rfl
  · exact guarded_pure.mpr fun _ => rfl

theorem block_keeps : block.Keeps Script.block := by
  intro token
  simp only [Script.block, guarded_bind]
  refine guarded_expect fun _ _ => ?_
  refine guarded_call_behind fun stmts _ => ?_
  exact guarded_spanFrom fun _ => guarded_pure.mpr fun _ => rfl

theorem blockBody_keeps : blockBody.Keeps Script.blockBody := by
  intro token
  rw [Script.blockBody, guarded_bind, guarded_isAt]
  split
  · rw [guarded_bind]
    refine guarded_expect fun _ _ => ?_
    exact guarded_pure.mpr fun _ => rfl
  · rw [guarded_bind, guarded_here]
    split
    · exact guarded_fail
    · simp only [guarded_bind]
      refine guarded_call (by decide) fun first _ => ?_
      refine guarded_call_behind fun others _ => ?_
      exact guarded_pure.mpr fun _ => rfl

theorem stmtAt_guarded (token : Token) :
    (stmtAt token).Guarded stmt (fun p _ => stmt.Ends p) (.facing false token) := by
  rw [stmtAt]
  split <;> simp only [guarded_bind]
  · refine guarded_call (by decide) fun body _ => ?_
    exact guarded_spanFrom fun _ => guarded_pure.mpr fun _ => rfl
  · refine guarded_expect fun _ _ => ?_
    exact guarded_spanFrom fun _ => guarded_pure.mpr fun _ => rfl
  · next hword =>
    refine guarded_advance (congrArg Token.Kind.isEnd hword) fun _ => ?_
    refine guarded_test fun condition _ => ?_
    refine guarded_call_behind fun ifTrue behind => ?_
    rw [guarded_isAtWord]
    split
    · next helse =>
      simp only [guarded_bind]
      refine guarded_advance (isEnd_of_isKeyword helse) fun _ => ?_
      refine guarded_call_behind fun ifFalse _ => ?_
      exact guarded_spanFrom fun _ => guarded_pure.mpr fun _ => rfl
    · rw [guarded_bind]
      exact guarded_spanFrom fun _ => guarded_pure.mpr fun _ => rfl
  · next hword =>
    refine guarded_advance (congrArg Token.Kind.isEnd hword) fun _ => ?_
    refine guarded_test fun condition _ => ?_
    refine guarded_call_behind fun body _ => ?_
    exact guarded_spanFrom fun _ => guarded_pure.mpr fun _ => rfl
  · next hword =>
    refine guarded_advance (congrArg Token.Kind.isEnd hword) fun _ => ?_
    refine guarded_expect fun _ _ => ?_
    refine guarded_forInit fun init _ => ?_
    refine guarded_exprUnless fun condition _ => ?_
    refine guarded_expect fun _ _ => ?_
    refine guarded_exprUnless fun step _ => ?_
    refine guarded_expect fun _ _ => ?_
    refine guarded_call_behind fun body _ => ?_
    exact guarded_spanFrom fun _ => guarded_pure.mpr fun _ => rfl
  · next hword =>
    refine guarded_advance (congrArg Token.Kind.isEnd hword) fun _ => ?_
    refine guarded_test fun value _ => ?_
    refine guarded_expect fun _ _ => ?_
    refine guarded_call_behind fun arms _ => ?_
    exact guarded_spanFrom fun _ => guarded_pure.mpr fun _ => rfl
  · next hword =>
    refine guarded_advance (congrArg Token.Kind.isEnd hword) fun _ => ?_
    refine guarded_expect fun _ _ => ?_
    exact guarded_spanFrom fun _ => guarded_pure.mpr fun _ => rfl
  · next hword =>
    refine guarded_advance (congrArg Token.Kind.isEnd hword) fun _ => ?_
    refine guarded_expect fun _ _ => ?_
    exact guarded_spanFrom fun _ => guarded_pure.mpr fun _ => rfl
  · next hword =>
    refine guarded_advance (congrArg Token.Kind.isEnd hword) fun _ => ?_
    refine guarded_exprUnless fun value _ => ?_
    refine guarded_expect fun _ _ => ?_
    exact guarded_spanFrom fun _ => guarded_pure.mpr fun _ => rfl
  · refine guarded_call (by decide) fun e _ => ?_
    refine guarded_expect fun _ _ => ?_
    exact guarded_spanFrom fun _ => guarded_pure.mpr fun _ => rfl

theorem stmt_keeps : stmt.Keeps Script.stmt := by
  intro token
  rw [Script.stmt, guarded_bind]
  refine guarded_atDeclaration fun declares => ?_
  split <;> rw [guarded_bind]
  · refine guarded_varDecl fun v _ => ?_
    exact guarded_pure.mpr fun _ => rfl
  · rw [guarded_here]
    exact stmtAt_guarded token

theorem arms_keeps : arms.Keeps Script.arms := by
  intro token
  rw [Script.arms, guarded_bind, guarded_here]
  split <;> simp only [guarded_bind]
  · refine guarded_expect fun _ _ => ?_
    exact guarded_pure.mpr fun _ => rfl
  · refine guarded_label fun label _ => ?_
    refine guarded_call_behind fun body _ => ?_
    refine guarded_spanFrom fun span => ?_
    refine guarded_call_behind fun others _ => ?_
    exact guarded_pure.mpr fun _ => rfl

theorem armBody_keeps : armBody.Keeps Script.armBody := by
  intro token
  rw [Script.armBody, guarded_bind, guarded_here]
  dsimp only
  split
  · exact guarded_pure.mpr (ends_of_consumes_eq_false rfl)
  · simp only [guarded_bind]
    refine guarded_call (by decide) fun first _ => ?_
    refine guarded_call_behind fun others _ => ?_
    exact guarded_pure.mpr (ends_of_consumes_eq_false rfl)

theorem formalList_keeps : formalList.Keeps Script.formalList := by
  intro token
  rw [Script.formalList, guarded_bind]
  refine guarded_formal fun first behind => ?_
  rw [guarded_bind, guarded_isAt]
  split
  · next hmark =>
    simp only [guarded_bind]
    refine guarded_advance (isEnd_of_isMark hmark) fun _ => ?_
    refine guarded_call_behind fun others _ => ?_
    exact guarded_pure.mpr fun _ => rfl
  · exact guarded_pure.mpr fun _ => rfl

theorem decls_keeps : decls.Keeps Script.decls := by
  intro token
  rw [Script.decls, guarded_bind, guarded_here]
  split
  · exact guarded_pure.mpr (ends_of_consumes_eq_false rfl)
  · simp only [guarded_bind]
    refine guarded_decl fun first _ => ?_
    refine guarded_call_behind fun others _ => ?_
    exact guarded_pure.mpr (ends_of_consumes_eq_false rfl)

/-- Every rule of the grammar is guarded. -/
theorem keeps : (rule : Rule) → rule.Keeps rule.script
  | expr => expr_keeps
  | conditional => conditional_keeps
  | binary level => binary_keeps level
  | operators level left => operators_keeps level left
  | unary => unary_keeps
  | suffixed => suffixed_keeps
  | suffixes base => suffixes_keeps base
  | primary => primary_keeps
  | arguments => arguments_keeps
  | commaList => commaList_keeps
  | block => block_keeps
  | blockBody => blockBody_keeps
  | stmt => stmt_keeps
  | arms => arms_keeps
  | armBody => armBody_keeps
  | formalList => formalList_keeps
  | decls => decls_keeps

end Rule

end ShaderLang.Grammar
