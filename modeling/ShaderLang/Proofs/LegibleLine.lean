import ShaderLang.Proofs.Legible

/-!
# Reading back lines

Every line of a block determines what it was written for: an instruction by its result, its keyword
and what stands behind that (`Inst.eq_of_text`), a terminator once the names of the blocks are known
(`Terminator.eq_of_text`).
-/

namespace ShaderLang.Ir

variable {known : Float → Prop}

theorem Legible.inj {α : Type} {P : α → Prop} {text : α → String} (h : Legible P text) {a b : α}
    (ha : P a) (hb : P b) (heq : text a = text b) : a = b :=
  (h a b [] [] ha hb .nil .nil (by rw [heq])).1

section Operands

variable (hknown : ToldApart known)

include hknown

/-- An operand with another one behind it. -/
theorem Value.comma_cut {v w : Value} (hv : v.IsLegible known) (hw : w.IsLegible known)
    {r s : List Char} (h : v.text.toList ++ (", ".toList ++ r) = w.text.toList ++ (", ".toList ++ s)) :
    v = w ∧ r = s := by
  have hended : ∀ t, Ended (", ".toList ++ t) := fun t => .cons rfl (' ' :: t)
  obtain ⟨rfl, hrest⟩ := legible hknown v w _ _ hv hw (hended r) (hended s) h
  exact ⟨rfl, List.append_cancel_left hrest⟩

/-- The last operand. -/
theorem Value.last_inj {v w : Value} (hv : v.IsLegible known) (hw : w.IsLegible known)
    (h : v.text.toList = w.text.toList) : v = w :=
  (legible hknown).inj hv hw (String.toList_inj.mp h)

theorem Value.arguments_inj {vs ws : List Value} (hv : ∀ v ∈ vs, v.IsLegible known)
    (hw : ∀ w ∈ ws, w.IsLegible known)
    (h : (commaText (vs.map text)).toList ++ ")".toList =
      (commaText (ws.map text)).toList ++ ")".toList) : vs = ws :=
  (commaText_legible (legible hknown) rfl (by decide) (fun _ => exists_head) hv hw h).1

end Operands

/-! ## Instructions -/

namespace BinaryOp

theorem text_inj {op op' : BinaryOp} (h : op.text = op'.text) : op = op' := by
  have hmem : ∀ op : BinaryOp, op ∈ all := by
    intro op
    cases op <;> decide
  exact List.inj_on_of_nodup_map (f := text) (by decide) (hmem op) (hmem op') h

end BinaryOp

namespace Predicate

/-- The second word of a comparison. -/
def mnemonic (p : Predicate) : String :=
  match p with
  | eq => "eq"
  | ne => "ne"
  | slt => "slt"
  | sle => "sle"
  | sgt => "sgt"
  | sge => "sge"
  | oeq => "oeq"
  | one => "one"
  | olt => "olt"
  | ole => "ole"
  | ogt => "ogt"
  | oge => "oge"

theorem text_eq (p : Predicate) :
    p.text = (if p.isFloat then "fcmp" else "icmp") ++ " " ++ p.mnemonic := by
  cases p <;> decide

theorem mnemonic_inj {p q : Predicate} (h : p.mnemonic = q.mnemonic) : p = q := by
  have hmem : ∀ p : Predicate, p ∈ all := by
    intro p
    cases p <;> decide
  exact List.inj_on_of_nodup_map (f := mnemonic) (by decide) (hmem p) (hmem q) h

theorem isWord_mnemonic (p : Predicate) : IsWord p.mnemonic.toList := by
  cases p <;> decide

end Predicate

namespace Conversion

theorem text_inj {op op' : Conversion} (h : op.text = op'.text) : op = op' := by
  have hmem : ∀ op : Conversion, op ∈ all := by
    intro op
    cases op <;> decide
  exact List.inj_on_of_nodup_map (f := text) (by decide) (hmem op) (hmem op') h

end Conversion

namespace Inst

/-- The first word of what an instruction does. -/
def keyword : Inst → String
  | alloca .. => "alloca"
  | load .. => "load"
  | store .. => "store"
  | binary _ op .. => op.text
  | compare _ predicate .. => if predicate.isFloat then "fcmp" else "icmp"
  | convert _ op _ => op.text
  | extractLane .. => "extractelement"
  | insertLane .. => "insertelement"
  | shuffle .. => "shufflevector"
  | elementAddress .. => "getelementptr"
  | call .. => "call"

/-- What stands behind the first word. -/
def argumentText : Inst → String
  | alloca _ ty name => ty.text ++ " ; " ++ name
  | load _ ty address => ty.text ++ ", " ++ address.text
  | store address value => value.text ++ ", " ++ address.text
  | binary _ _ ty left right => ty.text ++ " " ++ left.text ++ ", " ++ right.text
  | compare _ predicate left right => predicate.mnemonic ++ " " ++ left.text ++ ", " ++ right.text
  | convert _ _ value => value.text
  | extractLane _ vector lane => vector.text ++ ", " ++ toString lane
  | insertLane _ vector value lane => vector.text ++ ", " ++ value.text ++ ", " ++ toString lane
  | shuffle _ vector mask => vector.text ++ ", <" ++ commaText (mask.map toString) ++ ">"
  | elementAddress _ base index => base.text ++ ", 0, " ++ index.text
  | call _ callee arguments => "@" ++ callee ++ "(" ++ commaText (arguments.map Value.text) ++ ")"

theorem append_blank {word begun : String} (h : word ++ " " = begun) (t : String) :
    begun ++ t = word ++ (" " ++ t) := by
  rw [← String.append_assoc, h]

theorem effectText_eq (i : Inst) : i.effectText = i.keyword ++ " " ++ i.argumentText := by
  cases i with
  | binary _ op ty left right =>
    unfold effectText keyword argumentText
    simp only [String.append_assoc]
  | compare _ predicate left right =>
    unfold effectText keyword argumentText
    simp only [Predicate.text_eq, String.append_assoc]
  | convert _ op value =>
    unfold effectText keyword argumentText
    simp only [String.append_assoc]
  | call _ callee arguments =>
    unfold effectText keyword argumentText
    rw [show "call @" = "call" ++ " " ++ "@" by decide]
    simp only [String.append_assoc]
  | _ =>
    unfold effectText keyword argumentText
    simp only [String.append_assoc]
    apply append_blank
    decide

/-- The first words of instructions. -/
def keywords : List String :=
  BinaryOp.all.map BinaryOp.text ++ Conversion.all.map Conversion.text ++
    ["icmp", "fcmp", "alloca", "load", "store", "extractelement", "insertelement", "shufflevector",
      "getelementptr", "call"]

theorem keyword_mem (i : Inst) : i.keyword ∈ keywords := by
  cases i with
  | binary _ op =>
    change op.text ∈ keywords
    cases op <;> decide
  | compare _ predicate =>
    change (if predicate.isFloat then "fcmp" else "icmp") ∈ keywords
    cases predicate <;> decide
  | convert _ op =>
    change op.text ∈ keywords
    cases op <;> decide
  | _ =>
    dsimp only [keyword]
    decide

theorem isWord_keyword (i : Inst) : IsWord i.keyword.toList :=
  (by decide : ∀ keyword ∈ keywords, IsWord keyword.toList) i.keyword i.keyword_mem

/-- What kind of instruction a first word belongs to. -/
def formOf (keyword : String) : Nat :=
  if BinaryOp.all.any (·.text == keyword) then 3
  else if ["icmp", "fcmp"].contains keyword then 4
  else if Conversion.all.any (·.text == keyword) then 5
  else if keyword == "alloca" then 0
  else if keyword == "load" then 1
  else if keyword == "store" then 2
  else if keyword == "extractelement" then 6
  else if keyword == "insertelement" then 7
  else if keyword == "shufflevector" then 8
  else if keyword == "getelementptr" then 9
  else 10

theorem formOf_keyword (i : Inst) : formOf i.keyword = i.ctorIdx := by
  cases i with
  | binary _ op =>
    change formOf op.text = 3
    cases op <;> decide
  | compare _ predicate =>
    change formOf (if predicate.isFloat then "fcmp" else "icmp") = 4
    cases predicate <;> decide
  | convert _ op =>
    change formOf op.text = 5
    cases op <;> decide
  | _ => rfl

/-- An instruction that its line determines. -/
structure IsLegible (known : Float → Prop) (i : Inst) : Prop where
  operands : ∀ v ∈ i.operands, v.IsLegible known
  names : ∀ name ∈ i.names, Token.IsName name

theorem eq_of_argumentText (hknown : ToldApart known)
    {i j : Inst} (hi : i.IsLegible known) (hj : j.IsLegible known) (hresult : i.result? = j.result?)
    (hkeyword : i.keyword = j.keyword) (h : i.argumentText = j.argumentText) : i = j := by
  have hform : i.ctorIdx = j.ctorIdx := by rw [← formOf_keyword, ← formOf_keyword, hkeyword]
  replace h := congrArg String.toList h
  cases i with
  | alloca r ty name =>
    cases j with
    | alloca r' ty' name' =>
      unfold argumentText at h
      simp only [String.toList_append, List.append_assoc] at h
      obtain ⟨rfl, hname⟩ := Ty.text_cut h
      rw [List.append_cancel_left_eq, String.toList_inj] at hname
      rw [Option.some.inj hresult, hname]
    | _ => cases hform
  | load r ty address =>
    cases j with
    | load r' ty' address' =>
      obtain ⟨ha, ha'⟩ := And.intro (hi.operands address (by simp [operands]))
        (hj.operands address' (by simp [operands]))
      unfold argumentText at h
      simp only [String.toList_append, List.append_assoc] at h
      obtain ⟨rfl, haddress⟩ := Ty.text_cut h
      rw [Option.some.inj hresult, Value.last_inj hknown ha ha' (List.append_cancel_left haddress)]
    | _ => cases hform
  | store address value =>
    cases j with
    | store address' value' =>
      obtain ⟨ha, hv⟩ : address.IsLegible known ∧ value.IsLegible known := by
        simpa [operands] using hi.operands
      obtain ⟨ha', hv'⟩ : address'.IsLegible known ∧ value'.IsLegible known := by
        simpa [operands] using hj.operands
      unfold argumentText at h
      simp only [String.toList_append, List.append_assoc] at h
      obtain ⟨rfl, haddress⟩ := Value.comma_cut hknown hv hv' h
      rw [Value.last_inj hknown ha ha' haddress]
    | _ => cases hform
  | binary r op ty left right =>
    cases j with
    | binary r' op' ty' left' right' =>
      obtain ⟨hl, hr⟩ : left.IsLegible known ∧ right.IsLegible known := by
        simpa [operands] using hi.operands
      obtain ⟨hl', hr'⟩ : left'.IsLegible known ∧ right'.IsLegible known := by
        simpa [operands] using hj.operands
      obtain rfl := BinaryOp.text_inj hkeyword
      unfold argumentText at h
      simp only [String.toList_append, List.append_assoc] at h
      obtain ⟨rfl, hrest⟩ := Ty.text_cut h
      obtain ⟨rfl, hright⟩ := Value.comma_cut hknown hl hl' (List.append_cancel_left hrest)
      rw [Option.some.inj hresult, Value.last_inj hknown hr hr' hright]
    | _ => cases hform
  | compare r predicate left right =>
    cases j with
    | compare r' predicate' left' right' =>
      obtain ⟨hl, hr⟩ : left.IsLegible known ∧ right.IsLegible known := by
        simpa [operands] using hi.operands
      obtain ⟨hl', hr'⟩ : left'.IsLegible known ∧ right'.IsLegible known := by
        simpa [operands] using hj.operands
      unfold argumentText at h
      simp only [String.toList_append, List.append_assoc] at h
      have hblank : ∀ t, Ended (" ".toList ++ t) := fun t => .cons rfl t
      obtain ⟨hmnemonic, hrest⟩ := predicate.isWord_mnemonic.cut predicate'.isWord_mnemonic
        (hblank _) (hblank _) h
      obtain rfl := Predicate.mnemonic_inj (String.toList_inj.mp hmnemonic)
      obtain ⟨rfl, hright⟩ := Value.comma_cut hknown hl hl' (List.append_cancel_left hrest)
      rw [Option.some.inj hresult, Value.last_inj hknown hr hr' hright]
    | _ => cases hform
  | convert r op value =>
    cases j with
    | convert r' op' value' =>
      obtain ⟨hv, hv'⟩ := And.intro (hi.operands value (by simp [operands]))
        (hj.operands value' (by simp [operands]))
      obtain rfl := Conversion.text_inj hkeyword
      rw [Option.some.inj hresult, Value.last_inj hknown hv hv' h]
    | _ => cases hform
  | extractLane r vector lane =>
    cases j with
    | extractLane r' vector' lane' =>
      obtain ⟨hv, hv'⟩ := And.intro (hi.operands vector (by simp [operands]))
        (hj.operands vector' (by simp [operands]))
      unfold argumentText at h
      simp only [String.toList_append, List.append_assoc] at h
      obtain ⟨rfl, hlane⟩ := Value.comma_cut hknown hv hv' h
      rw [Option.some.inj hresult, toString_nat_inj (String.toList_inj.mp hlane)]
    | _ => cases hform
  | insertLane r vector value lane =>
    cases j with
    | insertLane r' vector' value' lane' =>
      obtain ⟨hv, hx⟩ : vector.IsLegible known ∧ value.IsLegible known := by
        simpa [operands] using hi.operands
      obtain ⟨hv', hx'⟩ : vector'.IsLegible known ∧ value'.IsLegible known := by
        simpa [operands] using hj.operands
      unfold argumentText at h
      simp only [String.toList_append, List.append_assoc] at h
      obtain ⟨rfl, hrest⟩ := Value.comma_cut hknown hv hv' h
      obtain ⟨rfl, hlane⟩ := Value.comma_cut hknown hx hx' hrest
      rw [Option.some.inj hresult, toString_nat_inj (String.toList_inj.mp hlane)]
    | _ => cases hform
  | shuffle r vector mask =>
    cases j with
    | shuffle r' vector' mask' =>
      obtain ⟨hv, hv'⟩ := And.intro (hi.operands vector (by simp [operands]))
        (hj.operands vector' (by simp [operands]))
      unfold argumentText at h
      rw [show ", <" = ", " ++ "<" by decide] at h
      simp only [String.toList_append, List.append_assoc] at h
      obtain ⟨rfl, hmask⟩ := Value.comma_cut hknown hv hv' h
      have hlane : ∀ n : Nat, True → ∃ c t, (toString n).toList = c :: t ∧ c ≠ '>' :=
        fun n _ => (isWord_nat n).exists_head (toString_nat_ne_nil n) rfl
      obtain ⟨rfl, -⟩ := commaText_legible legible_nat rfl (by decide) hlane (fun _ _ => trivial)
        (fun _ _ => trivial) (List.append_cancel_left hmask)
      rw [Option.some.inj hresult]
    | _ => cases hform
  | elementAddress r base index =>
    cases j with
    | elementAddress r' base' index' =>
      obtain ⟨hb, hx⟩ : base.IsLegible known ∧ index.IsLegible known := by
        simpa [operands] using hi.operands
      obtain ⟨hb', hx'⟩ : base'.IsLegible known ∧ index'.IsLegible known := by
        simpa [operands] using hj.operands
      unfold argumentText at h
      rw [show ", 0, " = ", " ++ "0, " by decide] at h
      simp only [String.toList_append, List.append_assoc] at h
      obtain ⟨rfl, hindex⟩ := Value.comma_cut hknown hb hb' h
      rw [Option.some.inj hresult, Value.last_inj hknown hx hx' (List.append_cancel_left hindex)]
    | _ => cases hform
  | call r callee arguments =>
    cases j with
    | call r' callee' arguments' =>
      obtain ⟨hname, hname'⟩ := And.intro (hi.names callee (by simp [names]))
        (hj.names callee' (by simp [names]))
      unfold argumentText at h
      simp only [String.toList_append, List.append_assoc] at h
      have hparen : ∀ t, Ended ("(".toList ++ t) := fun t => .cons rfl t
      obtain ⟨hcallee, hrest⟩ := (isWord_of_isName hname).cut (isWord_of_isName hname')
        (hparen _) (hparen _) (List.append_cancel_left h)
      obtain rfl := String.toList_inj.mp hcallee
      obtain rfl := Value.arguments_inj hknown hi.operands hj.operands (List.append_cancel_left hrest)
      cases hresult
      rfl
    | _ => cases hform

theorem isWord_tempText (t : Nat) : IsWord (tempText t).toList := by
  rw [tempText, String.toList_append]
  exact .append (by decide) (isWord_nat t)

/-- What an instruction does begins otherwise than a result. -/
theorem effectText_ne (i : Inst) (t : Nat) (s : List Char) :
    i.effectText.toList ≠ (tempText t).toList ++ s := by
  intro h
  have hhead : i.keyword.toList ≠ [] ∧ i.keyword.toList.head? ≠ some '%' :=
    (by decide : ∀ keyword ∈ keywords, keyword.toList ≠ [] ∧ keyword.toList.head? ≠ some '%')
      i.keyword i.keyword_mem
  obtain ⟨c, rest, hkeyword⟩ := List.exists_cons_of_ne_nil hhead.1
  rw [effectText_eq, String.toList_append, String.toList_append, hkeyword, tempText,
    String.toList_append] at h
  exact hhead.2 (by rw [hkeyword, (List.cons.inj h).1]; rfl)

/-- A line shows the result and what is done. -/
theorem text_cut {i j : Inst} (h : i.text = j.text) :
    i.result? = j.result? ∧ i.effectText = j.effectText := by
  have hblank : ∀ t, Ended (" = ".toList ++ t) := fun t => .cons rfl ('=' :: ' ' :: t)
  unfold text at h
  replace h := congrArg String.toList h
  cases hi : i.result? with
  | none =>
    cases hj : j.result? with
    | none =>
      simp only [hi, hj, String.toList_append, List.append_cancel_left_eq] at h
      exact ⟨rfl, String.toList_inj.mp h⟩
    | some t =>
      simp only [hi, hj, String.toList_append, List.append_assoc, List.append_cancel_left_eq] at h
      exact absurd h (effectText_ne i t _)
  | some t =>
    cases hj : j.result? with
    | none =>
      simp only [hi, hj, String.toList_append, List.append_assoc, List.append_cancel_left_eq] at h
      exact absurd h.symm (effectText_ne j t _)
    | some u =>
      simp only [hi, hj, String.toList_append, List.append_assoc, List.append_cancel_left_eq] at h
      obtain ⟨htemp, hrest⟩ := (isWord_tempText t).cut (isWord_tempText u) (hblank _) (hblank _) h
      rw [tempText_inj.mp (String.toList_inj.mp htemp)]
      exact ⟨rfl, String.toList_inj.mp (List.append_cancel_left hrest)⟩

/-- An instruction is determined by its line. -/
theorem eq_of_text (hknown : ToldApart known)
    {i j : Inst} (hi : i.IsLegible known) (hj : j.IsLegible known) (h : i.text = j.text) : i = j := by
  obtain ⟨hresult, heffect⟩ := text_cut h
  have hblank : ∀ t, Ended (" ".toList ++ t) := fun t => .cons rfl t
  replace heffect := congrArg String.toList heffect
  simp only [effectText_eq, String.toList_append, List.append_assoc] at heffect
  obtain ⟨hkeyword, hrest⟩ := i.isWord_keyword.cut j.isWord_keyword (hblank _) (hblank _) heffect
  exact eq_of_argumentText hknown hi hj hresult (String.toList_inj.mp hkeyword)
    (String.toList_inj.mp (List.append_cancel_left hrest))

end Inst

/-! ## Terminators -/

namespace Terminator

/-- The first word of a terminator. -/
def keyword : Terminator → String
  | branch _ | condBranch .. => "br"
  | switch .. => "switch"
  | ret _ => "ret"
  | unreachable => "unreachable"

/-- What stands behind the first word. -/
def argumentText (blockName : Nat → String) : Terminator → String
  | branch target => " %" ++ blockName target
  | condBranch condition ifTrue ifFalse =>
    " " ++ condition.text ++ ", " ++ "%" ++ blockName ifTrue ++ ", %" ++ blockName ifFalse
  | switch value default cases =>
    " " ++ value.text ++ ", " ++ "%" ++ blockName default ++ " ["
      ++ commaText (cases.map fun (label, target) =>
          toString label.toInt ++ ": %" ++ blockName target)
      ++ "]"
  | ret (some value) => " " ++ value.text
  | ret none => " void"
  | unreachable => ""

theorem text_eq (blockName : Nat → String) (t : Terminator) :
    t.text blockName = "  " ++ t.keyword ++ t.argumentText blockName := by
  have hcomma : ", %" = ", " ++ "%" := by decide
  cases t with
  | branch target =>
    rw [text, keyword, argumentText, show "  br %" = "  " ++ "br" ++ " %" by decide,
      String.append_assoc]
  | condBranch condition ifTrue ifFalse =>
    rw [text, keyword, argumentText, show "  br " = "  " ++ "br" ++ " " by decide, hcomma]
    simp only [String.append_assoc]
  | switch value default cases =>
    rw [text, keyword, argumentText, show "  switch " = "  " ++ "switch" ++ " " by decide, hcomma]
    simp only [String.append_assoc]
  | ret value =>
    cases value with
    | none => rw [text, keyword, argumentText]; decide
    | some value =>
      rw [text, keyword, argumentText, show "  ret " = "  " ++ "ret" ++ " " by decide]
      simp only [String.append_assoc]
  | unreachable => rw [text, keyword, argumentText]; decide

theorem isWord_keyword (t : Terminator) : IsWord t.keyword.toList := by
  cases t <;> rw [keyword] <;> decide

variable {blockName : Nat → String} {valid : Nat → Prop}

theorem ended_argumentText (t : Terminator) : Ended (t.argumentText blockName).toList := by
  have hblank : ∀ t, Ended (" ".toList ++ t) := fun t => .cons rfl t
  cases t with
  | branch target =>
    rw [argumentText, String.toList_append]
    exact hblank ('%' :: (blockName target).toList)
  | condBranch condition ifTrue ifFalse =>
    rw [argumentText]
    simp only [String.toList_append, List.append_assoc]
    exact hblank _
  | switch value default cases =>
    rw [argumentText]
    simp only [String.toList_append, List.append_assoc]
    exact hblank _
  | ret value =>
    cases value with
    | none =>
      rw [argumentText, show " void" = " " ++ "void" by decide, String.toList_append]
      exact hblank _
    | some value =>
      rw [argumentText, String.toList_append]
      exact hblank _
  | unreachable => exact .nil

/-- The cases of a switch. -/
theorem legible_case (hname : Legible valid blockName) :
    Legible (fun case : Int64 × Nat => valid case.2) fun (label, target) =>
      toString label.toInt ++ ": %" ++ blockName target := by
  rintro ⟨label, target⟩ ⟨label', target'⟩ r s hvalid hvalid' hr hs h
  have hcolon : ∀ t, Ended (": %".toList ++ t) := fun t => .cons rfl (' ' :: '%' :: t)
  have hlabel : ∀ n : Int64, IsWord (toString n.toInt).toList := fun n c hc =>
    endsWord_of_isIntegerChar (isIntegerChar_of_mem_toString hc)
  simp only [String.toList_append, List.append_assoc] at h
  obtain ⟨htext, hrest⟩ := (hlabel label).cut (hlabel label') (hcolon _) (hcolon _) h
  obtain ⟨rfl, rfl⟩ := hname target target' r s hvalid hvalid' hr hs (List.append_cancel_left hrest)
  rw [Int64.toInt_inj.mp (toString_int_inj (String.toList_inj.mp htext))]
  exact ⟨rfl, rfl⟩

theorem exists_head_case (case : Int64 × Nat) (_ : valid case.2) :
    ∃ c t, (match case with
      | (label, target) => toString label.toInt ++ ": %" ++ blockName target).toList = c :: t ∧
        c ≠ ']' := by
  obtain ⟨label, target⟩ := case
  have hword : IsWord (toString label.toInt).toList := fun c hc =>
    endsWord_of_isIntegerChar (isIntegerChar_of_mem_toString hc)
  obtain ⟨c, t, hc, hne⟩ := hword.exists_head (toString_int_ne_nil _) (rfl : endsWord ']' = true)
  refine ⟨c, t ++ (": %".toList ++ (blockName target).toList), ?_, hne⟩
  simp only [String.toList_append, List.append_assoc, hc, List.cons_append]

/-- Nothing that is returned is written like the absence of a value. -/
theorem argumentText_ret_ne {v : Value} (hv : v.IsLegible known) :
    (ret (some v)).argumentText blockName ≠ (ret none).argumentText blockName := by
  intro h
  rw [argumentText, argumentText, show " void" = " " ++ "void" by decide,
    String.append_right_inj] at h
  have hform := Value.formOf_text hv
  rw [h] at hform
  cases v <;> cases hform

/-- The name of a block alone is not that of a condition and two more. -/
theorem argumentText_branch_ne (hword : ∀ s, valid s → IsWord (blockName s).toList) {target : Nat}
    (hvalid : valid target) (condition : Value) (ifTrue ifFalse : Nat) :
    (branch target).argumentText blockName ≠
      (condBranch condition ifTrue ifFalse).argumentText blockName := by
  intro h
  have hcomma : ',' ∈ ((condBranch condition ifTrue ifFalse).argumentText blockName).toList := by
    simp [argumentText]
  rw [← h, argumentText, String.toList_append] at hcomma
  rcases List.mem_append.mp hcomma with hmem | hmem
  · exact absurd hmem (by decide)
  · exact absurd (hword target hvalid ',' hmem) (by decide)

theorem eq_of_argumentText (hknown : ToldApart known)
    (hword : ∀ s, valid s → IsWord (blockName s).toList)
    (hinj : ∀ s t, valid s → valid t → blockName s = blockName t → s = t) {t u : Terminator}
    (ht : ∀ v ∈ t.operands, v.IsLegible known) (hu : ∀ v ∈ u.operands, v.IsLegible known)
    (htv : ∀ s ∈ t.successors, valid s) (huv : ∀ s ∈ u.successors, valid s)
    (hkeyword : t.keyword = u.keyword)
    (h : t.argumentText blockName = u.argumentText blockName) : t = u := by
  have hname : Legible valid blockName := .of_words hword hinj
  cases t with
  | branch target =>
    have hvalid := htv target (by simp [successors])
    cases u with
    | branch target' =>
      rw [argumentText, argumentText, String.append_right_inj] at h
      rw [hinj _ _ hvalid (huv target' (by simp [successors])) h]
    | condBranch c x y => exact absurd h (argumentText_branch_ne hword hvalid c x y)
    | _ => simp [keyword] at hkeyword
  | condBranch condition ifTrue ifFalse =>
    cases u with
    | branch target =>
      exact absurd h.symm (argumentText_branch_ne hword (huv target (by simp [successors])) _ _ _)
    | condBranch condition' ifTrue' ifFalse' =>
      have hcomma : ∀ t, Ended (", %".toList ++ t) := fun t => .cons rfl (' ' :: '%' :: t)
      obtain ⟨hvalid, hvalid'⟩ : valid ifTrue ∧ valid ifFalse := by simpa [successors] using htv
      obtain ⟨huvalid, huvalid'⟩ : valid ifTrue' ∧ valid ifFalse' := by simpa [successors] using huv
      replace h := congrArg String.toList h
      simp only [argumentText, String.toList_append, List.append_assoc] at h
      obtain ⟨rfl, htargets⟩ := Value.comma_cut hknown (ht condition (by simp [operands]))
        (hu condition' (by simp [operands])) (List.append_cancel_left h)
      obtain ⟨rfl, hlast⟩ := hname _ _ _ _ hvalid huvalid (hcomma _) (hcomma _)
        (List.append_cancel_left htargets)
      rw [hname.inj hvalid' huvalid' (String.toList_inj.mp (List.append_cancel_left hlast))]
    | _ => simp [keyword] at hkeyword
  | switch value default cases =>
    cases u with
    | switch value' default' cases' =>
      have hopen : ∀ t, Ended (" [".toList ++ t) := fun t => .cons rfl ('[' :: t)
      obtain ⟨hvalid, hcases⟩ := List.forall_mem_cons.mp htv
      obtain ⟨huvalid, hucases⟩ := List.forall_mem_cons.mp huv
      replace hcases := List.forall_mem_map.mp hcases
      replace hucases := List.forall_mem_map.mp hucases
      replace h := congrArg String.toList h
      simp only [argumentText, String.toList_append, List.append_assoc] at h
      obtain ⟨rfl, htargets⟩ := Value.comma_cut hknown (ht value (by simp [operands]))
        (hu value' (by simp [operands])) (List.append_cancel_left h)
      obtain ⟨rfl, hrest⟩ := hname _ _ _ _ hvalid huvalid (hopen _) (hopen _)
        (List.append_cancel_left htargets)
      obtain ⟨rfl, -⟩ := commaText_legible (legible_case hname) rfl (by decide) exists_head_case hcases
        hucases (List.append_cancel_left hrest)
      rfl
    | _ => simp [keyword] at hkeyword
  | ret value =>
    cases u with
    | ret value' =>
      cases value with
      | none =>
        cases value' with
        | none => rfl
        | some v' => exact absurd h.symm (argumentText_ret_ne (hu v' (by simp [operands])))
      | some v =>
        cases value' with
        | none => exact absurd h (argumentText_ret_ne (ht v (by simp [operands])))
        | some v' =>
          rw [argumentText, argumentText, String.append_right_inj] at h
          rw [(Value.legible hknown).inj (ht v (by simp [operands])) (hu v' (by simp [operands])) h]
    | _ => simp [keyword] at hkeyword
  | unreachable =>
    cases u with
    | unreachable => rfl
    | _ => simp [keyword] at hkeyword

/-- A terminator is determined by its line, if the names of its targets are told apart. -/
theorem eq_of_text (hknown : ToldApart known)
    (hword : ∀ s, valid s → IsWord (blockName s).toList)
    (hinj : ∀ s t, valid s → valid t → blockName s = blockName t → s = t) {t u : Terminator}
    (ht : ∀ v ∈ t.operands, v.IsLegible known) (hu : ∀ v ∈ u.operands, v.IsLegible known)
    (htv : ∀ s ∈ t.successors, valid s) (huv : ∀ s ∈ u.successors, valid s)
    (h : t.text blockName = u.text blockName) : t = u := by
  replace h := congrArg String.toList h
  simp only [text_eq, String.toList_append, List.append_assoc, List.append_cancel_left_eq] at h
  obtain ⟨hkeyword, hargument⟩ := t.isWord_keyword.cut u.isWord_keyword (ended_argumentText t)
    (ended_argumentText u) h
  exact eq_of_argumentText hknown hword hinj ht hu htv huv (String.toList_inj.mp hkeyword)
    (String.toList_inj.mp hargument)

end Terminator

end ShaderLang.Ir
