import Mathlib
import ShaderLang.Proofs.Ending

/-!
# What the scripts read

A rule of the grammar reads what its script gives. `Rule.read` names the function that reads a rule,
and `Script.eval` follows a script up to the calls, which it leaves to these functions. To follow
the script of a rule then is to read the rule (`Rule.eval_script`), and whatever a run of the script
gives has been read (`Runs.eq_eval`). Since every rule has a run, reading ends on every source text
(`Program.ofText?_ends`).
-/

namespace ShaderLang.Grammar

/-- A value and the cursor behind it, or a failure. -/
def Outcome.result {bound : Nat} {α : Type} : Outcome bound α → Except Failure (α × Cursor)
  | ok value next _ => .ok (value, next)
  | error failure _ => .error failure

/-- Reads a rule. -/
def Rule.read : (rule : Rule) → Cursor → Except Failure (rule.Value × Cursor)
  | expr, c => (Grammar.expr c).result
  | conditional, c => (Grammar.conditional c).result
  | binary level, c => (Grammar.binary level c).result
  | operators level left, c => (Grammar.operators level left c).result
  | unary, c => (Grammar.unary c).result
  | suffixed, c => (Grammar.suffixed c).result
  | suffixes base, c => (Grammar.suffixes base c).result
  | primary, c => (Grammar.primary c).result
  | arguments, c => (Grammar.arguments c).result
  | commaList, c => (Grammar.commaList c).result
  | block, c => (Grammar.block c).result
  | blockBody, c => (Grammar.blockBody c).result
  | stmt, c => (Grammar.stmt c).result
  | arms, c => (Grammar.arms c).result
  | armBody, c => (Grammar.armBody c).result
  | formalList, c => (Grammar.formalList c).result
  | decls, c => (Grammar.decls c).result

namespace Script

variable {α β : Type}

/-- Follows a script and reads the rules that it calls. -/
def eval : Script α → Cursor → Except Failure (α × Cursor)
  | done value, c => .ok (value, c)
  | fail failure, _ => .error failure
  | look next, c => (next c.current c.previous).eval c
  | peek next, c =>
    match c.peek with
    | .ok kind => (next kind).eval c
    | .error fault => .error (.fault fault)
  | take next, c =>
    match c.step with
    | .ok c₁ => (next c.current).eval c₁
    | .error fault => .error (.fault fault)
  | call rule next, c =>
    match rule.read c with
    | .ok (value, c₁) => (next value).eval c₁
    | .error failure => .error failure

/-- A script gives what is read. -/
def Reads {bound : Nat} (m : Script α) (c : Cursor) (x : Outcome bound α) : Prop :=
  m.eval c = x.result

theorem eval_peek (next : Token.Kind → Script α) (c : Cursor) :
    (peek next).eval c =
      match c.peek with
      | .ok kind => (next kind).eval c
      | .error fault => .error (.fault fault) := by
  rw [eval]

theorem eval_take (next : Token → Script α) (c : Cursor) :
    (take next).eval c =
      match c.step with
      | .ok c₁ => (next c.current).eval c₁
      | .error fault => .error (.fault fault) := by
  rw [eval]

theorem eval_call (rule : Rule) (next : rule.Value → Script α) (c : Cursor) :
    (call rule next).eval c =
      match rule.read c with
      | .ok (value, c₁) => (next value).eval c₁
      | .error failure => .error failure := by
  rw [eval]

variable {bound other : Nat} {m : Script α} {x : Outcome bound α} {c : Cursor}

theorem eval_bind (m : Script α) (f : α → Script β) (c : Cursor) :
    (m >>= f).eval c =
      match m.eval c with
      | .ok (value, n) => (f value).eval n
      | .error failure => .error failure := by
  induction m generalizing c with
  | done value => rfl
  | fail failure => rfl
  | look next ih => exact ih ..
  | peek next ih =>
    refine (eval_peek (fun kind => next kind >>= f) c).trans ?_
    rw [eval_peek]
    cases c.peek with
    | ok kind => exact ih kind c
    | error fault => rfl
  | take next ih =>
    refine (eval_take (fun token => next token >>= f) c).trans ?_
    rw [eval_take]
    cases c.step with
    | ok c₁ => exact ih c.current c₁
    | error fault => rfl
  | call rule next ih =>
    refine (eval_call rule (fun value => next value >>= f) c).trans ?_
    rw [eval_call]
    cases rule.read c with
    | ok result => exact ih result.1 result.2
    | error failure => rfl

theorem reads_bind {f : α → Script β}
    {g : (value : α) → (next : Cursor) → next.left < bound → Outcome other β} (hm : m.Reads c x)
    (hf : ∀ value n h, (f value).Reads n (g value n h)) : (m >>= f).Reads c (x.bind g) := by
  unfold Reads at hm ⊢
  rw [eval_bind, hm]
  cases x with
  | ok value n h => exact hf value n h
  | error failure n => rfl

/-- Only a value is made of what a script gives. -/
theorem reads_map {f : α → Script β} {g : α → Cursor → β} {h : bound ≤ other} (hm : m.Reads c x)
    (hf : ∀ value n, (f value).eval n = .ok (g value n, n)) : (m >>= f).Reads c (x.map g h) :=
  reads_bind hm fun value n _ => hf value n

theorem reads_map_self {h : bound ≤ other} (hm : m.Reads c x) :
    m.Reads c (x.map (fun value _ => value) h) := by
  unfold Reads at hm ⊢
  rw [hm]
  cases x <;> rfl

theorem reads_call {rule : Rule} {x : Outcome bound rule.Value} (h : rule.read c = x.result) :
    (call rule pure).Reads c x := by
  unfold Reads
  rw [eval_call, h]
  cases x <;> rfl

theorem reads_pure {value : α} {h : c.left < bound} :
    (pure value : Script α).Reads c (.ok value c h) :=
  rfl

theorem reads_here {f : Token → Script α} (h : (f c.current).Reads c x) : (here >>= f).Reads c x :=
  h

theorem reads_isAt {mark : Mark} {f : Bool → Script α} (h : (f (c.isAt mark)).Reads c x) :
    (isAt mark >>= f).Reads c x :=
  h

theorem reads_isAtWord {word : Keyword} {f : Bool → Script α}
    (h : (f (c.isAtWord word)).Reads c x) : (isAtWord word >>= f).Reads c x :=
  h

theorem reads_ite {p : Prop} [Decidable p] {m n : Script α} {x y : Outcome bound α}
    (hpos : p → m.Reads c x) (hneg : ¬ p → n.Reads c y) :
    (if p then m else n).Reads c (if p then x else y) := by
  split
  · next h => exact hpos h
  · next h => exact hneg h

theorem reads_advance {wanted : Wanted} (hend : c.current.kind.isEnd = false) :
    advance.Reads c (c.advance wanted) := by
  unfold Reads advance Cursor.advance
  rw [eval_take, Cursor.step, if_neg (by simp [hend]), dif_neg (by simp [hend])]
  obtain ⟨current, previous, ⟨pending, stop⟩⟩ := c
  cases pending with
  | nil => rfl
  | cons result others => cases result <;> rfl

theorem reads_expect {mark : Mark} : (expect mark).Reads c (c.expect mark) := by
  unfold expect Cursor.expect
  refine reads_here (reads_ite (fun hmark => ?_) fun _ => rfl)
  exact reads_advance (isEnd_of_isMark hmark)

/-- Where a token is missing at the end of the text, it makes no difference that the end is taken
before the failure. -/
theorem reads_advance_bind {wanted : Wanted} {f : Token → Script β}
    {g : (token : Token) → (next : Cursor) → next.left < c.left → Outcome other β}
    (hend : c.current.kind.isEnd = true → f c.current = fail (.unexpected wanted c.current))
    (hf : ∀ token n h, (f token).Reads n (g token n h)) :
    (advance >>= f).Reads c ((c.advance wanted).bind g) := by
  cases h : c.current.kind.isEnd with
  | true =>
    unfold Reads
    rw [eval_bind, advance, eval_take, Cursor.step, if_pos h, Cursor.advance, dif_pos h]
    change (f c.current).eval _ = _
    rw [hend h]
    rfl
  | false => exact reads_bind (reads_advance h) hf

theorem reads_choose {wanted : Wanted} {f : Token → Option α}
    (hf : ∀ token, token.kind.isEnd = true → f token = none) :
    (choose wanted f).Reads c (c.choose wanted f) := by
  refine reads_advance_bind (fun hend => ?_) fun token n h => ?_
  · rw [hf c.current hend]
  · cases f token <;> rfl

theorem reads_ident : ident.Reads c c.ident := by
  refine reads_choose fun token hend => ?_
  split
  · next hname => simp [hname, Token.Kind.isEnd] at hend
  · rfl

/-! ## Expressions -/

theorem reads_expr (c : Cursor) : expr.Reads c (Grammar.expr c) := by
  rw [expr, Grammar.expr]
  refine reads_bind (reads_call rfl) fun target c₁ _ => reads_here ?_
  cases hop : assignOp? c₁.current.kind with
  | none => exact reads_pure
  | some op =>
    refine reads_bind (reads_advance (isEnd_of_eq_some hop rfl)) fun _ c₂ _ => ?_
    refine reads_bind (reads_call rfl) fun value c₃ _ => ?_
    exact reads_pure

theorem reads_conditional (c : Cursor) : conditional.Reads c (Grammar.conditional c) := by
  rw [conditional, Grammar.conditional]
  refine reads_bind (reads_call rfl) fun test c₁ _ => reads_isAt ?_
  refine reads_ite (fun hmark => ?_) fun _ => reads_pure
  refine reads_bind (reads_advance (isEnd_of_isMark hmark)) fun _ c₂ _ => ?_
  refine reads_bind (reads_call rfl) fun ifTrue c₃ _ => ?_
  refine reads_bind reads_expect fun _ c₄ _ => ?_
  refine reads_bind (reads_call rfl) fun ifFalse c₅ _ => ?_
  exact reads_pure

theorem reads_binary (level : Nat) (c : Cursor) :
    (binary level).Reads c (Grammar.binary level c) := by
  rw [binary, Grammar.binary]
  refine reads_bind (reads_call rfl) fun left c₁ _ => ?_
  exact reads_map_self (reads_call rfl)

theorem reads_operators (level : Nat) (left : Expr) (c : Cursor) :
    (operators level left).Reads c (Grammar.operators level left c) := by
  rw [operators, Grammar.operators]
  refine reads_here ?_
  cases hop : binaryOp? c.current.kind with
  | none => exact reads_pure
  | some op =>
    refine reads_ite (fun _ => reads_pure) fun _ => ?_
    refine reads_bind (reads_advance (isEnd_of_eq_some hop rfl)) fun _ c₁ _ => ?_
    refine reads_bind (reads_call rfl) fun right c₂ _ => ?_
    exact reads_map_self (reads_call rfl)

theorem reads_unary (c : Cursor) : unary.Reads c (Grammar.unary c) := by
  rw [unary, Grammar.unary]
  refine reads_here ?_
  cases hop : unaryOp? c.current.kind with
  | none => exact reads_call rfl
  | some op =>
    refine reads_bind (reads_advance (isEnd_of_eq_some hop rfl)) fun token c₁ _ => ?_
    refine reads_bind (reads_call rfl) fun operand c₂ _ => ?_
    exact reads_pure

theorem reads_suffixed (c : Cursor) : suffixed.Reads c (Grammar.suffixed c) := by
  rw [suffixed, Grammar.suffixed]
  refine reads_bind (reads_call rfl) fun base c₁ _ => ?_
  exact reads_map_self (reads_call rfl)

theorem reads_suffixes (base : Expr) (c : Cursor) :
    (suffixes base).Reads c (Grammar.suffixes base c) := by
  rw [suffixes, Grammar.suffixes]
  refine reads_isAt (reads_ite (fun hmark => ?_) fun _ => reads_isAt ?_)
  · refine reads_bind (reads_advance (isEnd_of_isMark hmark)) fun _ c₁ _ => ?_
    refine reads_bind (reads_call rfl) fun position c₂ _ => ?_
    refine reads_bind reads_expect fun _ c₃ _ => ?_
    exact reads_map_self (reads_call rfl)
  refine reads_ite (fun hmark => ?_) fun _ => reads_here ?_
  · refine reads_bind (reads_advance (isEnd_of_isMark hmark)) fun _ c₁ _ => ?_
    refine reads_bind reads_ident fun name c₂ _ => ?_
    exact reads_map_self (reads_call rfl)
  cases hstep : step? c.current.kind with
  | none => exact reads_pure
  | some direction =>
    refine reads_bind (reads_advance (isEnd_of_eq_some hstep rfl)) fun _ c₁ _ => ?_
    exact reads_map_self (reads_call rfl)

theorem reads_primary (c : Cursor) : primary.Reads c (Grammar.primary c) := by
  rw [primary, Grammar.primary]
  refine reads_advance_bind (fun hend => ?_) fun token c₁ _ => ?_
  · obtain ⟨⟨kind, span⟩, previous, rest⟩ := c
    cases kind with
    | endOfText => rfl
    | _ => cases hend
  obtain ⟨kind, span⟩ := token
  cases kind with
  | int value => exact reads_pure
  | float value => exact reads_pure
  | keyword word =>
    cases word
    case trueWord => exact reads_pure
    case falseWord => exact reads_pure
    all_goals first
      | exact reads_map (reads_call rfl) fun _ _ => rfl
      | rfl
  | name text =>
    refine reads_isAt (reads_ite (fun _ => ?_) fun _ => reads_pure)
    exact reads_map (reads_call rfl) fun _ _ => rfl
  | mark mark =>
    cases mark
    case openParen =>
      refine reads_bind (reads_call rfl) fun inner c₂ _ => ?_
      exact reads_map reads_expect fun _ _ => rfl
    all_goals rfl
  | endOfText => rfl

theorem reads_arguments (c : Cursor) : arguments.Reads c (Grammar.arguments c) := by
  rw [arguments, Grammar.arguments]
  refine reads_bind reads_expect fun _ c₁ _ => reads_isAt ?_
  refine reads_ite (fun _ => ?_) fun _ => ?_
  · exact reads_map reads_expect fun _ _ => rfl
  · refine reads_bind (reads_call rfl) fun arguments c₂ _ => ?_
    exact reads_map reads_expect fun _ _ => rfl

theorem reads_commaList (c : Cursor) : commaList.Reads c (Grammar.commaList c) := by
  rw [commaList, Grammar.commaList]
  refine reads_bind (reads_call rfl) fun first c₁ _ => reads_isAt ?_
  refine reads_ite (fun hmark => ?_) fun _ => reads_pure
  refine reads_bind (reads_advance (isEnd_of_isMark hmark)) fun _ c₂ _ => ?_
  exact reads_map (reads_call rfl) fun _ _ => rfl

/-! ## Variables and types -/

theorem reads_qualifier (c : Cursor) : qualifier.Reads c (Grammar.qualifier c) := by
  rw [qualifier, Grammar.qualifier]
  refine reads_here ?_
  cases hq : c.current.kind.qualifier? with
  | none => exact reads_pure
  | some q => exact reads_map (reads_advance (isEnd_of_eq_some hq rfl)) fun _ _ => rfl

theorem reads_ty (c : Cursor) : ty.Reads c (Grammar.ty c) := by
  rw [ty, Grammar.ty]
  refine reads_here ?_
  cases ht : c.current.kind.ty? with
  | none => rfl
  | some t => exact reads_map (reads_advance (isEnd_of_eq_some ht rfl)) fun _ _ => rfl

theorem reads_arrayLength (c : Cursor) : arrayLength.Reads c (Grammar.arrayLength c) := by
  refine reads_choose fun token hend => ?_
  split
  · next hint => simp [hint, Token.Kind.isEnd] at hend
  · rfl

theorem reads_arraySuffix (element : Ty) (c : Cursor) :
    (arraySuffix element).Reads c (Grammar.arraySuffix element c) := by
  rw [arraySuffix, Grammar.arraySuffix]
  refine reads_isAt (reads_ite (fun hmark => ?_) fun _ => reads_pure)
  refine reads_bind (reads_advance (isEnd_of_isMark hmark)) fun _ c₁ _ => ?_
  refine reads_bind (reads_arrayLength c₁) fun length c₂ _ => ?_
  exact reads_map reads_expect fun _ _ => rfl

theorem reads_head (c : Cursor) : head.Reads c (Grammar.head c) := by
  rw [head, Grammar.head]
  refine reads_here (reads_bind (reads_qualifier c) fun q c₁ _ => ?_)
  refine reads_bind (reads_ty c₁) fun t c₂ _ => ?_
  exact reads_map reads_ident fun _ _ => rfl

theorem reads_initializer (c : Cursor) : initializer.Reads c (Grammar.initializer c) := by
  rw [initializer, Grammar.initializer]
  refine reads_isAt (reads_ite (fun hmark => ?_) fun _ => reads_pure)
  refine reads_bind (reads_advance (isEnd_of_isMark hmark)) fun _ c₁ _ => ?_
  exact reads_map (reads_call rfl) fun _ _ => rfl

theorem reads_varRest (d : Head) (c : Cursor) : (varRest d).Reads c (Grammar.varRest d c) := by
  rw [varRest, Grammar.varRest]
  refine reads_bind (reads_arraySuffix d.ty c) fun t c₁ _ => ?_
  refine reads_bind (reads_initializer c₁) fun init c₂ _ => ?_
  exact reads_map reads_expect fun _ _ => rfl

theorem reads_varDecl (c : Cursor) : varDecl.Reads c (Grammar.varDecl c) := by
  rw [varDecl, Grammar.varDecl]
  refine reads_bind (reads_head c) fun d c₁ _ => ?_
  exact reads_map_self (reads_varRest d c₁)

theorem reads_formal (c : Cursor) : formal.Reads c (Grammar.formal c) := by
  rw [formal, Grammar.formal]
  refine reads_bind (reads_head c) fun d c₁ _ => ?_
  exact reads_map (reads_arraySuffix d.ty c₁) fun _ _ => rfl

/-! ## Statements -/

/-- A fault behind a type is found where a declaration is looked for. -/
theorem eval_atDeclaration (c : Cursor) :
    atDeclaration.eval c =
      match Grammar.atDeclaration c with
      | .ok declares => .ok (declares, c)
      | .error fault => .error (.fault fault) := by
  rw [atDeclaration, Grammar.atDeclaration]
  change (ite _ _ _ : Script Bool).eval c = _
  split
  · rfl
  split
  · rw [eval_peek]
    cases c.peek <;> rfl
  · rfl

theorem reads_exprUnless (m : Mark) (c : Cursor) :
    (exprUnless m).Reads c (Grammar.exprUnless m c) := by
  rw [exprUnless, Grammar.exprUnless]
  refine reads_isAt (reads_ite (fun _ => reads_pure) fun _ => ?_)
  exact reads_map (reads_call rfl) fun _ _ => rfl

/-- An expression with a mark behind it. -/
theorem reads_expr_upTo {mark : Mark} {f : Expr → Script β} {g : Expr → Cursor → β}
    (hle : ∀ n : Cursor, n.left < c.left → n.left ≤ other)
    (hf : ∀ e n, (f e).eval n = .ok (g e n, n)) :
    (call .expr pure >>= fun e : Expr => expect mark >>= fun _ => f e).Reads c
      ((Grammar.expr c).bind fun e c₁ h₁ =>
        (c₁.expect mark).map (fun _ c₂ => g e c₂) (hle c₁ h₁)) :=
  reads_bind (reads_call rfl) fun e _ _ => reads_map reads_expect fun _ n => hf e n

theorem reads_test (c : Cursor) : test.Reads c (Grammar.test c) := by
  rw [test, Grammar.test]
  refine reads_bind reads_expect fun _ c₁ h₁ => ?_
  exact reads_expr_upTo (fun _ h₂ => by omega) fun _ _ => rfl

theorem reads_forInit (c : Cursor) : forInit.Reads c (Grammar.forInit c) := by
  rw [forInit, Grammar.forInit]
  refine reads_isAt (reads_ite (fun _ => ?_) fun _ => ?_)
  · exact reads_map reads_expect fun _ _ => rfl
  unfold Reads
  rw [eval_bind, eval_atDeclaration]
  cases Grammar.atDeclaration c with
  | error fault => rfl
  | ok declares =>
    cases declares with
    | true => exact reads_map (reads_varDecl c) fun _ _ => rfl
    | false => exact reads_expr_upTo (fun _ => Nat.le_of_lt) fun _ _ => rfl

theorem reads_label (c : Cursor) : label.Reads c (Grammar.label c) := by
  rw [label, Grammar.label]
  refine reads_isAtWord (reads_ite (fun hword => ?_) fun _ => reads_isAtWord ?_)
  · refine reads_bind (reads_advance (isEnd_of_isKeyword hword)) fun _ c₁ h₁ => ?_
    exact reads_expr_upTo (fun _ h₂ => by omega) fun _ _ => rfl
  refine reads_ite (fun hword => ?_) fun _ => rfl
  refine reads_bind (reads_advance (isEnd_of_isKeyword hword)) fun _ c₁ _ => ?_
  exact reads_map reads_expect fun _ _ => rfl

theorem reads_block (c : Cursor) : block.Reads c (Grammar.block c) := by
  rw [block, Grammar.block]
  refine reads_bind reads_expect fun token c₁ _ => ?_
  exact reads_map (reads_call rfl) fun _ _ => rfl

theorem reads_blockBody (c : Cursor) : blockBody.Reads c (Grammar.blockBody c) := by
  rw [blockBody, Grammar.blockBody]
  refine reads_isAt (reads_ite (fun _ => ?_) fun _ => reads_here ?_)
  · exact reads_map reads_expect fun _ _ => rfl
  refine reads_ite (fun _ => rfl) fun _ => ?_
  refine reads_bind (reads_call rfl) fun first c₁ _ => ?_
  exact reads_map (reads_call rfl) fun _ _ => rfl

theorem reads_stmt (c : Cursor) : stmt.Reads c (Grammar.stmt c) := by
  rw [stmt, Grammar.stmt]
  unfold Reads
  rw [eval_bind, eval_atDeclaration]
  cases Grammar.atDeclaration c with
  | error fault => rfl
  | ok declares =>
    cases declares with
    | true => exact reads_map (reads_varDecl c) fun _ _ => rfl
    | false =>
      change (stmtAt c.current).Reads c _
      obtain ⟨⟨kind, start⟩, previous, rest⟩ := c
      cases kind with
      | mark mark =>
        cases mark
        case openBrace => exact reads_map (reads_call rfl) fun _ _ => rfl
        case semicolon => exact reads_map reads_expect fun _ _ => rfl
        all_goals exact reads_expr_upTo (fun _ => Nat.le_of_lt) fun _ _ => rfl
      | keyword word =>
        cases word
        case ifWord =>
          refine reads_bind (reads_advance rfl) fun _ c₁ _ => ?_
          refine reads_bind (reads_test c₁) fun condition c₂ _ => ?_
          refine reads_bind (reads_call rfl) fun ifTrue c₃ _ => reads_isAtWord ?_
          refine reads_ite (fun hword => ?_) fun _ => reads_pure
          refine reads_bind (reads_advance (isEnd_of_isKeyword hword)) fun _ c₄ _ => ?_
          exact reads_map (reads_call rfl) fun _ _ => rfl
        case whileWord =>
          refine reads_bind (reads_advance rfl) fun _ c₁ _ => ?_
          refine reads_bind (reads_test c₁) fun condition c₂ _ => ?_
          exact reads_map (reads_call rfl) fun _ _ => rfl
        case forWord =>
          refine reads_bind (reads_advance rfl) fun _ c₁ _ => ?_
          refine reads_bind reads_expect fun _ c₂ _ => ?_
          refine reads_bind (reads_forInit c₂) fun init c₃ _ => ?_
          refine reads_bind (reads_exprUnless .semicolon c₃) fun condition c₄ _ => ?_
          refine reads_bind reads_expect fun _ c₅ _ => ?_
          refine reads_bind (reads_exprUnless .closeParen c₅) fun step c₆ _ => ?_
          refine reads_bind reads_expect fun _ c₇ _ => ?_
          exact reads_map (reads_call rfl) fun _ _ => rfl
        case switchWord =>
          refine reads_bind (reads_advance rfl) fun _ c₁ _ => ?_
          refine reads_bind (reads_test c₁) fun value c₂ _ => ?_
          refine reads_bind reads_expect fun _ c₃ _ => ?_
          exact reads_map (reads_call rfl) fun _ _ => rfl
        case breakWord =>
          refine reads_bind (reads_advance rfl) fun _ c₁ _ => ?_
          exact reads_map reads_expect fun _ _ => rfl
        case continueWord =>
          refine reads_bind (reads_advance rfl) fun _ c₁ _ => ?_
          exact reads_map reads_expect fun _ _ => rfl
        case returnWord =>
          refine reads_bind (reads_advance rfl) fun _ c₁ _ => ?_
          refine reads_bind (reads_exprUnless .semicolon c₁) fun value c₂ _ => ?_
          exact reads_map reads_expect fun _ _ => rfl
        all_goals exact reads_expr_upTo (fun _ => Nat.le_of_lt) fun _ _ => rfl
      | _ => exact reads_expr_upTo (fun _ => Nat.le_of_lt) fun _ _ => rfl

theorem reads_arms (c : Cursor) : arms.Reads c (Grammar.arms c) := by
  rw [arms, Grammar.arms]
  refine reads_here (reads_ite (fun _ => ?_) fun _ => ?_)
  · exact reads_map reads_expect fun _ _ => rfl
  refine reads_bind (reads_label c) fun label c₁ _ => ?_
  refine reads_bind (reads_call rfl) fun body c₂ _ => ?_
  exact reads_map (reads_call rfl) fun _ _ => rfl

theorem reads_armBody (c : Cursor) : armBody.Reads c (Grammar.armBody c) := by
  rw [armBody, Grammar.armBody]
  refine reads_here (reads_ite (fun _ => reads_pure) fun _ => ?_)
  refine reads_bind (reads_call rfl) fun first c₁ _ => ?_
  exact reads_map (reads_call rfl) fun _ _ => rfl

/-! ## Programs -/

theorem reads_formalList (c : Cursor) : formalList.Reads c (Grammar.formalList c) := by
  rw [formalList, Grammar.formalList]
  refine reads_bind (reads_formal c) fun first c₁ _ => reads_isAt ?_
  refine reads_ite (fun hmark => ?_) fun _ => reads_pure
  refine reads_bind (reads_advance (isEnd_of_isMark hmark)) fun _ c₂ _ => ?_
  exact reads_map (reads_call rfl) fun _ _ => rfl

theorem reads_formals (c : Cursor) : formals.Reads c (Grammar.formals c) := by
  rw [formals, Grammar.formals]
  refine reads_isAt (reads_ite (fun _ => reads_pure) fun _ => reads_isAtWord ?_)
  refine reads_ite (fun hword => ?_) fun _ => ?_
  · unfold Reads
    rw [eval_peek]
    cases c.peek with
    | error fault => rfl
    | ok kind =>
      refine reads_ite (fun _ => ?_) fun _ => reads_map_self (reads_call rfl)
      exact reads_map (reads_advance (isEnd_of_isKeyword hword)) fun _ _ => rfl
  · exact reads_map_self (reads_call rfl)

theorem reads_fnRest (d : Head) (c : Cursor) : (fnRest d).Reads c (Grammar.fnRest d c) := by
  rw [fnRest, Grammar.fnRest]
  refine reads_bind reads_expect fun _ c₁ _ => ?_
  refine reads_bind (reads_formals c₁) fun formals c₂ _ => ?_
  refine reads_bind reads_expect fun _ c₃ _ => ?_
  exact reads_map (reads_call rfl) fun _ _ => rfl

theorem reads_decl (c : Cursor) : decl.Reads c (Grammar.decl c) := by
  rw [decl, Grammar.decl]
  refine reads_bind (reads_head c) fun d c₁ _ => reads_isAt ?_
  refine reads_ite (fun _ => ?_) fun _ => ?_
  · refine reads_ite (fun _ => rfl) fun _ => ?_
    exact reads_map (reads_fnRest d c₁) fun _ _ => rfl
  · exact reads_map (reads_varRest d c₁) fun _ _ => rfl

theorem reads_decls (c : Cursor) : decls.Reads c (Grammar.decls c) := by
  rw [decls, Grammar.decls]
  refine reads_here (reads_ite (fun _ => reads_pure) fun _ => ?_)
  refine reads_bind (reads_decl c) fun first c₁ _ => ?_
  exact reads_map (reads_call rfl) fun _ _ => rfl

end Script

/-! ## Runs and readings -/

/-- To follow the script of a rule is to read the rule. -/
theorem Rule.eval_script : (rule : Rule) → (c : Cursor) → rule.script.eval c = rule.read c
  | expr, c => Script.reads_expr c
  | conditional, c => Script.reads_conditional c
  | binary level, c => Script.reads_binary level c
  | operators level left, c => Script.reads_operators level left c
  | unary, c => Script.reads_unary c
  | suffixed, c => Script.reads_suffixed c
  | suffixes base, c => Script.reads_suffixes base c
  | primary, c => Script.reads_primary c
  | arguments, c => Script.reads_arguments c
  | commaList, c => Script.reads_commaList c
  | block, c => Script.reads_block c
  | blockBody, c => Script.reads_blockBody c
  | stmt, c => Script.reads_stmt c
  | arms, c => Script.reads_arms c
  | armBody, c => Script.reads_armBody c
  | formalList, c => Script.reads_formalList c
  | decls, c => Script.reads_decls c

theorem Runs.eq_eval {α : Type} {m : Script α} {c : Cursor} {ts : List Token}
    {r : Except Failure (α × Cursor)} (h : Runs m c ts r) : r = m.eval c := by
  induction h with
  | done => rfl
  | fail => rfl
  | look _ ih => exact ih
  | peek hpeek _ ih => rwa [Script.eval_peek, hpeek]
  | peekFault hpeek => rw [Script.eval_peek, hpeek]
  | take hstep _ ih => rwa [Script.eval_take, hstep]
  | takeFault hstep => rw [Script.eval_take, hstep]
  | call _ _ ihrule ih =>
    rw [Rule.eval_script] at ihrule
    rwa [Script.eval_call, ← ihrule]
  | callFails _ ihrule =>
    rw [Rule.eval_script] at ihrule
    rw [Script.eval_call, ← ihrule]

/-- A rule has one run in front of a text, and that run gives what is read. -/
theorem Rule.exists_runs_iff (rule : Rule) (c : Cursor) :
    ∃ ts, ∀ ts' r, Runs rule.script c ts' r ↔ ts' = ts ∧ r = rule.read c := by
  obtain ⟨ts, r, h⟩ := rule.exists_runs c
  have hr : r = rule.read c := h.eq_eval.trans (rule.eval_script c)
  refine ⟨ts, fun ts' r' => ⟨fun h' => ?_, ?_⟩⟩
  · obtain ⟨hts, hr'⟩ := h.unique h'
    exact ⟨hts, hr'.trans hr⟩
  · rintro ⟨rfl, rfl⟩
    rwa [← hr]

end ShaderLang.Grammar

namespace ShaderLang

open Grammar

/-- A source text is read: which tokens are taken on the way, the end of the text among them, and
what comes of it. -/
inductive Program.Reading (source : String) : List Token → Except Failure Program → Prop
  | fault {fault : Token.Fault} (h : Cursor.ofText? source = .error fault) :
      Program.Reading source [] (.error (.fault fault))
  | run {c : Cursor} {log : List Token} {r : Except Failure (Program × Cursor)}
      (h : Cursor.ofText? source = .ok c) (hrun : Runs Rule.decls.script c log r) :
      Program.Reading source log (r.map Prod.fst)

theorem Grammar.Outcome.map_result {bound : Nat} {α : Type} (x : Outcome bound α) :
    x.result.map Prod.fst = x.toExcept := by
  cases x <;> rfl

/-- Reading ends on every source text, and gives what `Program.ofText?` says: a program or
a failure. The tokens that it takes on the way are the first ones of the text, each taken once, and
the end of the text is taken once at most. On its way a rule calls others behind a token that it has
taken, or lower ones, so a loop, which is a rule that calls itself, takes a token each time
around. -/
theorem Program.ofText?_ends (source : String) :
    (∃ log, (∀ log' result, Program.Reading source log' result ↔
          log' = log ∧ result = Program.ofText? source) ∧
        log.map .ok <+: (Token.Stream.ofText source).pending ++
          [.ok (Token.Stream.ofText source).endToken] ∧
        log.countP (·.kind.isEnd) ≤ 1) ∧
      ∀ (rule callee : Rule) (c d : Cursor) (ts : List Token), Calls rule.script c ts callee d →
        c.Takes ts d ∧ (ts ≠ [] ∨ callee.level < rule.level) := by
  refine ⟨?_, fun rule callee c d ts => Rule.descends⟩
  cases hc : Cursor.ofText? source with
  | error fault =>
    have hresult : Program.ofText? source = .error (.fault fault) := by simp only [ofText?, hc]
    refine ⟨[], fun log result => ⟨?_, ?_⟩, List.nil_prefix, Nat.zero_le _⟩
    · rintro (⟨h⟩ | ⟨h, -⟩)
      · cases hc.symm.trans h
        exact ⟨rfl, hresult.symm⟩
      · cases hc.symm.trans h
    · rintro ⟨rfl, rfl⟩
      rw [hresult]
      exact .fault hc
  | ok c =>
    have hresult : Program.ofText? source = (Rule.decls.read c).map Prod.fst := by
      simp only [ofText?, hc]
      exact (Outcome.map_result _).symm
    obtain ⟨log, hlog⟩ := Rule.decls.exists_runs_iff c
    have hrun := (hlog log _).mpr ⟨rfl, rfl⟩
    have hspends := Rule.spends hrun
    refine ⟨log, fun log' result => ⟨?_, ?_⟩, hspends.isPrefix.trans (Cursor.ahead_of_ofText? hc),
      hspends.countP_isEnd_le⟩
    · rintro (⟨h⟩ | ⟨h, hrun'⟩)
      · cases hc.symm.trans h
      · cases hc.symm.trans h
        obtain ⟨hlog', rfl⟩ := (hlog _ _).mp hrun'
        exact ⟨hlog', hresult.symm⟩
    · rintro ⟨rfl, rfl⟩
      rw [hresult]
      exact .run hc hrun

/-- A text that ends inside its second declaration: reading it fails there, and the loop of the
declarations comes around behind the three tokens of the first one. -/
theorem Program.ofText?_ends_of_truncated :
    (∃ log, Program.Reading "int a; in" log (.error (.unexpected .ty ⟨.endOfText, ⟨9, 9⟩⟩))) ∧
    ∃ c d ts, Cursor.ofText? "int a; in" = .ok c ∧ Calls Rule.decls.script c ts .decls d ∧
      c.Takes ts d ∧ ts ≠ [] := by
  have hread : Program.ofText? "int a; in" = .error (.unexpected .ty ⟨.endOfText, ⟨9, 9⟩⟩) := by
    cbv
  obtain ⟨⟨log, hlog, -, -⟩, hcalls⟩ := Program.ofText?_ends "int a; in"
  let c : Cursor := ⟨⟨.keyword .intWord, ⟨0, 3⟩⟩, default,
    ⟨[.ok ⟨.name "a", ⟨4, 5⟩⟩, .ok ⟨.mark .semicolon, ⟨5, 6⟩⟩, .ok ⟨.keyword .inWord, ⟨7, 9⟩⟩], 9⟩⟩
  have hc : Cursor.ofText? "int a; in" = .ok c := by cbv
  have hdecls : Calls Rule.decls.script c
      [c.current, ⟨.name "a", ⟨4, 5⟩⟩, ⟨.mark .semicolon, ⟨5, 6⟩⟩] .decls
      ⟨⟨.keyword .inWord, ⟨7, 9⟩⟩, ⟨5, 6⟩, ⟨[], 9⟩⟩ :=
    -- the type, the name, and the semicolon behind them
    .look <| .look <| .look <| .look <| .take rfl <| .take rfl <|
      .look <| .look <| .look <| .look <| .take rfl <| .look .here
  obtain ⟨htakes, hne | hlevel⟩ := hcalls _ _ _ _ _ hdecls
  · exact ⟨⟨log, (hlog _ _).mpr ⟨rfl, hread.symm⟩⟩, c, _, _, hc, hdecls, htakes, hne⟩
  · exact absurd hlevel (Nat.lt_irrefl _)

end ShaderLang
