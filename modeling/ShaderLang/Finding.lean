import ShaderLang.Syntax.Expr

/-!
# Findings

A finding is one thing that is wrong with a program that can be read. Findings do not end a check:
a report is a result together with everything that was found on the way to it, in order.
-/

namespace ShaderLang

/-- What a name is used as. -/
inductive NameUse where
  | asVariable
  | asFunction
  deriving DecidableEq

/-- How messages speak of the use of a name. -/
def NameUse.text : NameUse → String
  | asVariable => "variable"
  | asFunction => "function"

namespace Finding

/-- What is wrong. -/
inductive Cause where
  | declConflict (name : String) (previous : Span)
  | notDeclared (name : String) (use : NameUse)
  | incompatibleOperands (op : String) (left right : Ty)
  | incompatibleOperand (op : String) (operand : Ty)
  | invalidSwizzle (field : String)
  | swizzleOutOfBound (field : String) (base : Ty)
  | oversizedSwizzle (field : String)
  | swizzleOfNonVector (field : String) (base : Ty)
  | notAnArray (found : Ty)
  | notAFunction (name : String)
  | tooFewArguments (name : String) (expected given : Nat)
  | tooManyArguments (name : String) (expected given : Nat)
  | argumentMismatch (formal : String) (index : Nat) (expected actual : Ty)
  | testNotBool (found : Ty)
  | switchNotInt (found : Ty)
  | caseNotConstant
  | duplicateCase (value : Int64)
  | duplicateDefault
  | returnMismatch (expected found : Ty)
  | breakOutside
  | continueOutside
  | initializerMismatch (name : String) (declared found : Ty)
  | initializerNotConstant (name : String)
  | voidVariable (name : String)
  | notAPlace (op : String)
  | assignToConst (name : String)
  | subscriptNotInt (found : Ty)
  | constructorMismatch (target : Ty) (arguments : List Ty)
  deriving DecidableEq

/-- How messages count the arguments of a call. -/
def argumentCountText (name : String) (expected given : Nat) : String :=
  "function '" ++ name ++ "' expects " ++ toString expected ++ " argument(s) but "
    ++ toString given ++ " given"

/-- What is wrong, in words. -/
def Cause.text : Cause → String
  | declConflict name _ =>
    "declaration of '" ++ name ++ "' conflicts with an earlier declaration in the same scope"
  | notDeclared name use => "no declaration found for " ++ use.text ++ " '" ++ name ++ "'"
  | incompatibleOperands op left right =>
    "incompatible operands: " ++ left.text ++ " " ++ op ++ " " ++ right.text
  | incompatibleOperand op operand => "incompatible operand: " ++ op ++ " " ++ operand.text
  | invalidSwizzle field => "invalid swizzle '" ++ field ++ "': only x, y, z and w select lanes"
  | swizzleOutOfBound field base =>
    "swizzle '" ++ field ++ "' is out of bound for " ++ base.text
  | oversizedSwizzle field => "swizzle '" ++ field ++ "' selects more than four lanes"
  | swizzleOfNonVector field base =>
    "cannot swizzle '" ++ field ++ "' on non-vector type " ++ base.text
  | notAnArray found => "[] can only be applied to arrays, found " ++ found.text
  | notAFunction name => "'" ++ name ++ "' is not a function"
  | tooFewArguments name expected given => argumentCountText name expected given
  | tooManyArguments name expected given => argumentCountText name expected given
  | argumentMismatch formal index expected actual =>
    "incompatible argument " ++ toString (index + 1) ++ ": " ++ actual.text ++ " given, "
      ++ expected.text ++ " expected for '" ++ formal ++ "'"
  | testNotBool found => "test expression must be bool, found " ++ found.text
  | switchNotInt found => "switch value must be int, found " ++ found.text
  | caseNotConstant => "case label must be an integer constant"
  | duplicateCase value => "duplicate case value " ++ toString value.toInt
  | duplicateDefault => "multiple default labels in one switch"
  | returnMismatch expected found =>
    "incompatible return: " ++ found.text ++ " given, " ++ expected.text ++ " expected"
  | breakOutside => "break is only allowed inside a loop or switch"
  | continueOutside => "continue is only allowed inside a loop"
  | initializerMismatch name declared found =>
    "cannot initialize '" ++ name ++ "' of type " ++ declared.text ++ " with " ++ found.text
  | initializerNotConstant name => "global '" ++ name ++ "' must be initialized with a constant"
  | voidVariable name => "variable '" ++ name ++ "' cannot have type void"
  | notAPlace op => "left side of " ++ op ++ " is not assignable"
  | assignToConst name => "cannot assign to const variable '" ++ name ++ "'"
  | subscriptNotInt found => "array subscript must be int, found " ++ found.text
  | constructorMismatch target arguments =>
    "cannot construct " ++ target.text ++ " from ("
      ++ String.intercalate ", " (arguments.map Ty.text) ++ ")"

end Finding

/-- One thing that is wrong, and where. -/
structure Finding where
  cause : Finding.Cause
  span : Span
  deriving DecidableEq

/-- The finding in words, behind the bytes that it is about. -/
def Finding.text (f : Finding) : String :=
  toString f.span.start ++ ".." ++ toString f.span.stop ++ ": " ++ f.cause.text

/-- A result and what was found on the way to it. -/
structure Report (α : Type) where
  value : α
  findings : List Finding

namespace Report

variable {α β : Type}

/-- A result without a finding. -/
protected def pure (value : α) : Report α :=
  ⟨value, []⟩

/-- Goes on with a result; what is found later comes later. -/
protected def bind (r : Report α) (f : α → Report β) : Report β :=
  ⟨(f r.value).value, r.findings ++ (f r.value).findings⟩

instance : Monad Report where
  pure := Report.pure
  bind := Report.bind

/-- One finding. -/
def note (cause : Finding.Cause) (span : Span) : Report Unit :=
  ⟨(), [⟨cause, span⟩]⟩

/-- One finding, if a condition holds. -/
def noteIf (condition : Bool) (cause : Finding.Cause) (span : Span) : Report Unit :=
  if condition then note cause span else pure ()

/-- The value that is there; where there is none, a finding, and a value to go on with. -/
def orNote (value : Option α) (default : α) (cause : Finding.Cause) (span : Span) : Report α :=
  match value with
  | some value => pure value
  | none => ⟨default, [⟨cause, span⟩]⟩

/-- Whether nothing was found. -/
def isClean (r : Report α) : Bool :=
  r.findings.isEmpty

@[simp]
theorem value_pure (a : α) : (pure a : Report α).value = a :=
  rfl

@[simp]
theorem findings_pure (a : α) : (pure a : Report α).findings = [] :=
  rfl

@[simp]
theorem value_bind (r : Report α) (f : α → Report β) :
    (r >>= f).value = (f r.value).value :=
  rfl

@[simp]
theorem findings_bind (r : Report α) (f : α → Report β) :
    (r >>= f).findings = r.findings ++ (f r.value).findings :=
  rfl

@[simp]
theorem value_orNote (value : Option α) (default : α) (cause : Finding.Cause) (span : Span) :
    (orNote value default cause span).value = value.getD default := by
  cases value <;> rfl

end Report

end ShaderLang
