import ShaderLang.Proofs.LegibleLine
import ShaderLang.Proofs.LedgerProgram

/-!
# Reading back modules

The text of a module is cut into lines, the lines into the global variables and the functions, and
those of a function into its blocks: an empty line stands before each function, and only lines inside
blocks begin with a blank. A function is *legible* if all its lines are, but for those at its
beginning, which are known from its parameters: there alone parameters are read, and a parameter may
be written like a temporary value (`Function.IsLegible`).

Modules of the same name whose contents are legible are equal as soon as their texts are
(`Module.eq_of_text`).
-/

namespace ShaderLang.Ir

variable {known : Float → Prop}

/-! ## Line breaks -/

/-- A text without a line feed. -/
def Unbroken (t : String) : Prop :=
  '\n' ∉ t.toList

instance (t : String) : Decidable (Unbroken t) :=
  inferInstanceAs (Decidable (¬ _))

@[simp]
theorem unbroken_append {s t : String} : Unbroken (s ++ t) ↔ Unbroken s ∧ Unbroken t := by
  simp [Unbroken]

theorem unbroken_of_isWord {t : String} (h : IsWord t.toList) : Unbroken t :=
  fun hmem => absurd (h '\n' hmem) (by decide)

@[simp]
theorem unbroken_nat (n : Nat) : Unbroken n.repr :=
  unbroken_of_isWord (isWord_nat n)

theorem unbroken_commaText {ts : List String} (h : ∀ t ∈ ts, Unbroken t) : Unbroken (commaText ts) := by
  cases ts with
  | nil => exact (by decide : Unbroken (commaText []))
  | cons t ts =>
    unfold Unbroken
    rw [toList_commaText_cons, List.mem_append, List.mem_flatMap]
    rintro (hmem | ⟨u, hu, hmem⟩)
    · exact h t List.mem_cons_self hmem
    · exact h u (List.mem_cons_of_mem _ hu) (by simpa using hmem)

@[simp]
theorem Ty.unbroken (t : Ty) : Unbroken t.text := by
  induction t with
  | vector element lanes ih =>
    simp +decide [text, ih]
  | array element count ih =>
    simp +decide [text, ih]
  | _ => rw [text]; decide

/-- The name in an operand, if there is one, is a name of the language. -/
def Value.IsNamed : Value → Prop
  | param name | global name | function name => Token.IsName name
  | _ => True

theorem Value.IsLegible.isNamed {v : Value} (h : v.IsLegible known) : v.IsNamed := by
  cases v with
  | param | function => cases h
  | global name => exact h
  | _ => trivial

theorem Value.unbroken {v : Value} (h : v.IsNamed) : Unbroken v.text := by
  have hname : ∀ {name}, Token.IsName name → Unbroken name :=
    fun hname => unbroken_of_isWord (isWord_of_isName hname)
  cases v with
  | temp t => exact unbroken_of_isWord (Inst.isWord_tempText t)
  | int n =>
    exact unbroken_of_isWord fun c hc => endsWord_of_isIntegerChar (isIntegerChar_of_mem_toString hc)
  | float x => exact unbroken_of_isWord (isWord_floatText x)
  | bool b => cases b <;> exact (by decide : ∀ t ∈ ["true", "false"], Unbroken t) _ (by simp [text])
  | vector lanes =>
    have hlanes : Unbroken (commaText (lanes.map floatText)) :=
      unbroken_commaText (List.forall_mem_map.mpr fun x _ => unbroken_of_isWord (isWord_floatText x))
    simp only [text, unbroken_append, hlanes, and_true]
    decide
  | undefined => exact (by decide : Unbroken "undef")
  | param name | global name | function name =>
    simp only [text, unbroken_append, hname h, and_true]
    decide

/-- The names in an instruction are names of the language. -/
structure Inst.IsNamed (i : Inst) : Prop where
  operands : ∀ v ∈ i.operands, v.IsNamed
  names : ∀ name ∈ i.names, Token.IsName name

theorem Inst.unbroken_effectText {i : Inst} (h : i.IsNamed) : Unbroken i.effectText := by
  have hvalue : ∀ v ∈ i.operands, Unbroken v.text := fun v hv => Value.unbroken (h.operands v hv)
  have hname : ∀ name ∈ i.names, Unbroken name :=
    fun name hn => unbroken_of_isWord (isWord_of_isName (h.names name hn))
  rw [effectText_eq, unbroken_append, unbroken_append]
  refine ⟨⟨unbroken_of_isWord i.isWord_keyword, by decide⟩, ?_⟩
  cases i with
  | compare r predicate left right =>
    have hmnemonic : Unbroken predicate.mnemonic := unbroken_of_isWord predicate.isWord_mnemonic
    unfold argumentText
    simp_all +decide [operands]
  | shuffle r vector mask =>
    have hmask : Unbroken (commaText (mask.map toString)) :=
      unbroken_commaText (List.forall_mem_map.mpr fun n _ => unbroken_nat n)
    unfold argumentText
    simp_all +decide [operands]
  | call r callee arguments =>
    have harguments : Unbroken (commaText (arguments.map Value.text)) :=
      unbroken_commaText (List.forall_mem_map.mpr hvalue)
    unfold argumentText
    simp_all +decide [names]
  | _ =>
    unfold argumentText
    simp_all +decide [operands, names]

theorem Inst.unbroken {i : Inst} (h : i.IsNamed) : Unbroken i.text := by
  have heffect := unbroken_effectText h
  unfold text
  split
  · next t _ =>
    have htemp : Unbroken (tempText t) := unbroken_of_isWord (isWord_tempText t)
    simp_all +decide
  · simp_all +decide

theorem Terminator.unbroken {blockName : Nat → String} (hname : ∀ s, Unbroken (blockName s))
    {t : Terminator} (h : ∀ v ∈ t.operands, v.IsNamed) : Unbroken (t.text blockName) := by
  have hvalue : ∀ v ∈ t.operands, Unbroken v.text := fun v hv => Value.unbroken (h v hv)
  cases t with
  | switch value default cases =>
    have hcase : ∀ p ∈ cases, Unbroken (toString p.1.toInt ++ ": %" ++ blockName p.2) := by
      intro p _
      have hlabel : Unbroken (toString p.1.toInt) := unbroken_of_isWord fun c hc =>
        endsWord_of_isIntegerChar (isIntegerChar_of_mem_toString hc)
      simp only [unbroken_append, hlabel, hname, and_true, true_and]
      decide
    have hcases := unbroken_commaText (List.forall_mem_map.mpr hcase)
    simp_all +decide [text, operands]
  | ret value =>
    cases value <;> simp_all +decide [text, operands]
  | _ => simp_all +decide [text, operands]

/-! ## Lines -/

theorem toList_text (m : Module) :
    m.text.toList = m.lines.flatMap fun line => line.toList ++ ['\n'] := by
  simp [Module.text, List.flatMap_map]

/-- Lines without line feeds can be told apart when each is ended by one. -/
theorem lines_inj {ls ms : List String} (hl : ∀ l ∈ ls, Unbroken l) (hm : ∀ l ∈ ms, Unbroken l)
    (h : (ls.flatMap fun line => line.toList ++ ['\n']) =
      ms.flatMap fun line => line.toList ++ ['\n']) : ls = ms := by
  have hne : ∀ (line : String) (rest : List Char), line.toList ++ ['\n'] ++ rest ≠ [] := by simp
  induction ls generalizing ms with
  | nil =>
    cases ms with
    | nil => rfl
    | cons m ms => exact absurd h.symm (hne m _)
  | cons l ls ih =>
    cases ms with
    | nil => exact absurd h (hne l _)
    | cons m ms =>
      obtain ⟨hl₀, hls⟩ := List.forall_mem_cons.mp hl
      obtain ⟨hm₀, hms⟩ := List.forall_mem_cons.mp hm
      have hfree : ∀ {line : String}, Unbroken line → ∀ c ∈ line.toList, (c == '\n') = false := by
        intro line hline c hc
        exact beq_false_of_ne fun heq => hline (heq ▸ hc)
      simp only [List.flatMap_cons, List.append_assoc, List.singleton_append] at h
      obtain ⟨hline, hrest⟩ := cut_of_stops (hfree hl₀) (hfree hm₀) (by simp) (by simp) h
      rw [String.toList_inj.mp hline, ih hls hms (List.cons.inj hrest).2]

/-- Lists are equal if what is written for their elements is, and tells those at the same place
apart. -/
theorem eq_of_map_eq {α β : Type} {f g : α → β} {l m : List α} (h : l.map f = m.map g)
    (heq : ∀ (k : Nat) a b, l[k]? = some a → m[k]? = some b → f a = g b → a = b) : l = m := by
  apply List.ext_getElem?
  intro k
  have hat := congrArg (·[k]?) h
  simp only [List.getElem?_map] at hat
  cases ha : l[k]? with
  | none =>
    rw [ha, Option.map_none, eq_comm, Option.map_eq_none_iff] at hat
    rw [hat]
  | some a =>
    rw [ha, Option.map_some, eq_comm] at hat
    obtain ⟨b, hb, hab⟩ := Option.map_eq_some_iff.mp hat
    rw [hb, heq k a b ha hb hab.symm]

/-- Sections that begin with a head, and have no other one, can be told apart. -/
theorem sections_inj {α : Type} (isHead : α → Bool) {ss ts : List (α × List α)}
    (hs : ∀ s ∈ ss, isHead s.1 = true ∧ ∀ x ∈ s.2, isHead x = false)
    (ht : ∀ t ∈ ts, isHead t.1 = true ∧ ∀ x ∈ t.2, isHead x = false)
    (h : (ss.flatMap fun s => s.1 :: s.2) = ts.flatMap fun t => t.1 :: t.2) : ss = ts := by
  induction ss generalizing ts with
  | nil =>
    cases ts with
    | nil => rfl
    | cons t ts => cases h
  | cons s ss ih =>
    cases ts with
    | nil => cases h
    | cons t ts =>
      obtain ⟨⟨-, hs₀⟩, hss⟩ := List.forall_mem_cons.mp hs
      obtain ⟨⟨-, ht₀⟩, hts⟩ := List.forall_mem_cons.mp ht
      have hhead : ∀ us : List (α × List α),
          (∀ u ∈ us, isHead u.1 = true ∧ ∀ x ∈ u.2, isHead x = false) →
            ∀ x ∈ (us.flatMap fun u => u.1 :: u.2).head?, isHead x = true := by
        intro us hus x hx
        cases us with
        | nil => cases hx
        | cons u us =>
          cases hx
          exact (hus u List.mem_cons_self).1
      obtain ⟨hfirst, hrest⟩ := List.cons.inj h
      obtain ⟨hbody, hothers⟩ := cut_of_stops hs₀ ht₀ (hhead ss hss) (hhead ts hts) hrest
      rw [ih hss hts hothers, Prod.ext hfirst hbody]

/-! ## Functions -/

theorem Ty.exists_head (t : Ty) : ∃ c rest, t.text.toList = c :: rest ∧ c ≠ ')' := by
  cases t with
  | vector element lanes =>
    refine ⟨'<', ((toString lanes ++ " x " ++ element.text ++ ">").toList), ?_, by decide⟩
    simp [text]
  | array element count =>
    refine ⟨'[', ((toString count ++ " x " ++ element.text ++ "]").toList), ?_, by decide⟩
    simp [text]
  | _ => exact ⟨_, _, rfl, by decide⟩

/-- The beginning of a function with these parameters: each goes into a slot of its own. -/
def openings (n : Nat) : List (String × Ty) → List Inst
  | [] => []
  | (name, ty) :: rest =>
    .alloca n ty name :: .store (.temp n) (.param name) :: openings (n + 1) rest

theorem isNamed_openings {params : List (String × Ty)} (h : ∀ param ∈ params, Token.IsName param.1)
    (n : Nat) : ∀ i ∈ openings n params, i.IsNamed := by
  induction params generalizing n with
  | nil => simp [openings]
  | cons param rest ih =>
    obtain ⟨hname, hrest⟩ := List.forall_mem_cons.mp h
    intro i hi
    rw [openings, List.mem_cons, List.mem_cons] at hi
    rcases hi with rfl | rfl | hi
    · exact ⟨by simp [Inst.operands], by simpa [Inst.names] using hname⟩
    · exact ⟨by simpa [Inst.operands, Value.IsNamed] using hname, by simp [Inst.names]⟩
    · exact ih hrest (n + 1) i hi

/-- A function that its lines determine. -/
structure Function.IsLegible (known : Float → Prop) (f : Function) : Prop where
  name : Token.IsName f.name
  params : ∀ param ∈ f.params, Token.IsName param.1
  graph : f.IsGraph
  named : ∀ block ∈ f.blocks, ∃ stem ∈ blockStems, ∃ n, block.name = numberedName stem n
  closed : ∀ block ∈ f.blocks, block.terminator.isSome
  openings : ∀ index inst, (openings 0 f.params)[index]? = some inst → f.Has 0 index inst
  insts : ∀ block index inst, f.Has block index inst →
    block = 0 ∧ index < (Ir.openings 0 f.params).length ∨ inst.IsLegible known
  terminators : ∀ block ∈ f.blocks, ∀ t ∈ block.terminator, ∀ v ∈ t.operands, v.IsLegible known

theorem isWord_numberedName {stem : String} (h : stem ∈ blockStems) (n : Nat) :
    IsWord (numberedName stem n).toList := by
  have hstem : IsWord stem.toList :=
    (by decide : ∀ stem ∈ blockStems, IsWord stem.toList) stem h
  unfold numberedName
  split
  · exact hstem
  · simp only [String.toList_append]
    exact (hstem.append (by decide)).append (isWord_nat n)

theorem numberedName_ne_nil {stem : String} (h : stem ∈ blockStems) (n : Nat) :
    (numberedName stem n).toList ≠ [] := by
  have hstem : stem.toList ≠ [] := (by decide : ∀ stem ∈ blockStems, stem.toList ≠ []) stem h
  unfold numberedName
  split
  · exact hstem
  · simp [hstem]

/-- Whether a line is that of the name of a block: the others inside a function begin with a blank. -/
def isLabel (line : String) : Bool :=
  line.toList.head? != some ' '

theorem Inst.isLabel_text (i : Inst) : isLabel i.text = false := by
  unfold text
  split <;> simp [isLabel]

theorem Terminator.isLabel_text (t : Terminator) (blockName : Nat → String) :
    isLabel (t.text blockName) = false := by
  simp [isLabel, text_eq]

namespace Function

/-- The line of the name of a block, and those of its contents. -/
def labelled (f : Function) (b : Block) : String × List String :=
  (b.name ++ ":",
    b.insts.toList.map Inst.text ++ (b.terminator.map (Terminator.text f.blockName)).toList)

theorem flatMap_blockLines (f : Function) :
    f.blocks.toList.flatMap f.blockLines =
      (f.blocks.toList.map f.labelled).flatMap fun s => s.1 :: s.2 := by
  rw [List.flatMap_map]
  rfl

variable {f g : Function}

namespace IsLegible

theorem isWord_name (h : f.IsLegible known) {block : Block} (hblock : block ∈ f.blocks) :
    IsWord block.name.toList := by
  obtain ⟨stem, hstem, n, hname⟩ := h.named block hblock
  rw [hname]
  exact isWord_numberedName hstem n

theorem sections (h : f.IsLegible known) : ∀ s ∈ f.blocks.toList.map f.labelled,
    isLabel s.1 = true ∧ ∀ line ∈ s.2, isLabel line = false := by
  refine List.forall_mem_map.mpr fun block hblock => ⟨?_, fun line hline => ?_⟩
  · obtain ⟨stem, hstem, n, hname⟩ := h.named block (Array.mem_toList_iff.mp hblock)
    obtain ⟨c, rest, hc, hne⟩ := (isWord_numberedName hstem n).exists_head (numberedName_ne_nil hstem n)
      (rfl : endsWord ' ' = true)
    simp [isLabel, labelled, hname, hc, hne]
  · rcases List.mem_append.mp hline with hline | hline
    · obtain ⟨i, -, rfl⟩ := List.mem_map.mp hline
      exact i.isLabel_text
    · obtain ⟨t, -, rfl⟩ := Option.map_eq_some_iff.mp (Option.mem_toList.mp hline)
      exact t.isLabel_text _

/-- The names of blocks are words, and they are told apart. -/
theorem isWord_blockName (h : f.IsLegible known) {s : Nat} (hs : s < f.blocks.size) :
    IsWord (f.blockName s).toList := by
  simp only [blockName, Array.getElem?_eq_getElem hs]
  exact h.isWord_name (Array.getElem_mem hs)

theorem blockName_inj (h : f.IsLegible known) {s t : Nat} (hs : s < f.blocks.size)
    (ht : t < f.blocks.size) (heq : f.blockName s = f.blockName t) : s = t := by
  simp only [blockName, Array.getElem?_eq_getElem hs, Array.getElem?_eq_getElem ht, Option.map_some,
    Option.getD_some] at heq
  refine (List.getElem?_inj (by simpa using hs) h.graph.names).mp ?_
  simpa [hs, ht] using heq

theorem successors_lt (h : f.IsLegible known) {block : Block} (hblock : block ∈ f.blocks)
    {t : Terminator} (ht : block.terminator = some t) : ∀ s ∈ t.successors, s < f.blocks.size := by
  intro s hs
  have hsuccessors : s ∈ block.successors := by simpa [Block.successors, ht] using hs
  obtain ⟨target, htarget, hid⟩ := h.graph.closed block hblock s hsuccessors
  obtain ⟨id, hat⟩ := Array.getElem?_of_mem htarget
  rw [← hid, h.graph.ids id target hat]
  exact (Array.getElem?_eq_some_iff.mp hat).1

/-- Functions with the same labels name their blocks alike. -/
theorem blockName_eq {f g : Function}
    (hnames : f.blocks.toList.map Block.name = g.blocks.toList.map Block.name) :
    f.blockName = g.blockName := by
  funext s
  have hat := congrArg (·[s]?) hnames
  simpa [blockName] using congrArg (·.getD "?") hat

theorem opening (h : f.IsLegible known) {index : Nat} {i : Inst} (hi : f.Has 0 index i)
    (hindex : index < (Ir.openings 0 f.params).length) :
    (Ir.openings 0 f.params)[index]? = some i := by
  obtain ⟨content, hcontent, hinst⟩ := hi
  obtain ⟨content', hcontent', hinst'⟩ := h.openings index _ (List.getElem?_eq_getElem hindex)
  rw [hcontent] at hcontent'
  cases hcontent'
  rw [List.getElem?_eq_getElem hindex, ← hinst', hinst]

/-- Instructions at the same place of functions with the same parameters are the same if their lines
are. -/
theorem inst_eq (hknown : ToldApart known)
    (hf : f.IsLegible known) (hg : g.IsLegible known) (hparams : f.params = g.params)
    {block index : Nat} {i j : Inst} (hi : f.Has block index i) (hj : g.Has block index j)
    (h : i.text = j.text) : i = j := by
  by_cases hbegin : block = 0 ∧ index < (Ir.openings 0 f.params).length
  · obtain ⟨rfl, hindex⟩ := hbegin
    have hi' := hf.opening hi hindex
    have hj' := hg.opening hj (hparams ▸ hindex)
    rw [hparams, hj'] at hi'
    exact (Option.some.inj hi').symm
  · have hi' := (hf.insts block index i hi).resolve_left hbegin
    have hj' := (hg.insts block index j hj).resolve_left (hparams ▸ hbegin)
    exact Inst.eq_of_text hknown hi' hj' h

/-- Blocks at the same place are the same if their lines are. -/
theorem block_eq (hknown : ToldApart known)
    (hf : f.IsLegible known) (hg : g.IsLegible known) (hparams : f.params = g.params)
    (hnames : f.blockName = g.blockName) (hsize : f.blocks.size = g.blocks.size)
    {id : Nat} {b c : Block} (hb : f.blocks[id]? = some b) (hc : g.blocks[id]? = some c)
    (h : f.labelled b = g.labelled c) : b = c := by
  have hbmem := Array.mem_of_getElem? hb
  have hcmem := Array.mem_of_getElem? hc
  obtain ⟨t, ht⟩ := Option.isSome_iff_exists.mp (hf.closed b hbmem)
  obtain ⟨u, hu⟩ := Option.isSome_iff_exists.mp (hg.closed c hcmem)
  obtain ⟨hlabel, hlines⟩ := Prod.mk.inj h
  simp only [ht, hu, Option.map_some, Option.toList_some] at hlines
  obtain ⟨hinsts, hterminator⟩ := List.append_inj' hlines rfl
  have hname : b.name = c.name := by simpa using hlabel
  have hid : b.id = c.id := (hf.graph.ids id b hb).trans (hg.graph.ids id c hc).symm
  have hcode : b.insts = c.insts := by
    apply Array.toList_inj.mp
    refine eq_of_map_eq hinsts fun k i j hi hj hij => ?_
    rw [Array.getElem?_toList] at hi hj
    exact inst_eq hknown hf hg hparams ⟨b, hb, hi⟩ ⟨c, hc, hj⟩ hij
  have hend : t = u := by
    refine Terminator.eq_of_text hknown (fun s hs => hf.isWord_blockName hs)
      (fun s s' hs hs' => hf.blockName_inj hs hs') (hf.terminators b hbmem t ht)
      (hg.terminators c hcmem u hu) (hf.successors_lt hbmem ht) ?_ ?_
    · rw [hsize]
      exact hg.successors_lt hcmem hu
    · rw [List.cons.inj hterminator |>.1, hnames]
  cases b
  cases c
  simp_all

theorem legible_param : Legible (fun param : String × Ty => Token.IsName param.1)
    fun (name, ty) => ty.text ++ " %" ++ name := by
  rintro ⟨name, ty⟩ ⟨name', ty'⟩ r s hname hname' hr hs h
  simp only [String.toList_append, List.append_assoc] at h
  obtain ⟨rfl, hrest⟩ := Ty.text_cut h
  obtain ⟨htext, rfl⟩ := (isWord_of_isName hname).cut (isWord_of_isName hname') hr hs
    (List.append_cancel_left hrest)
  rw [show name = name' from String.toList_inj.mp htext]
  exact ⟨rfl, rfl⟩

theorem exists_head_param (param : String × Ty) : ∃ c t, (match param with
    | (name, ty) => ty.text ++ " %" ++ name).toList = c :: t ∧ c ≠ ')' := by
  obtain ⟨name, ty⟩ := param
  obtain ⟨c, t, hc, hne⟩ := ty.exists_head
  refine ⟨c, t ++ (" %".toList ++ name.toList), ?_, hne⟩
  simp only [String.toList_append, List.append_assoc, hc, List.cons_append]

/-- The first line of a function says all but what its blocks do. -/
theorem header_inj (hf : f.IsLegible known) (hg : g.IsLegible known)
    (h : "define " ++ f.returnTy.text ++ " @" ++ f.name ++ "("
        ++ commaText (f.params.map fun (name, ty) => ty.text ++ " %" ++ name) ++ ") \x7b" =
      "define " ++ g.returnTy.text ++ " @" ++ g.name ++ "("
        ++ commaText (g.params.map fun (name, ty) => ty.text ++ " %" ++ name) ++ ") \x7b") :
    f.returnTy = g.returnTy ∧ f.name = g.name ∧ f.params = g.params := by
  have hparen : ∀ t, Ended ("(".toList ++ t) := fun t => .cons rfl t
  replace h := congrArg String.toList h
  simp only [String.toList_append, List.append_assoc] at h
  obtain ⟨hty, hrest⟩ := Ty.text_cut (List.append_cancel_left h)
  obtain ⟨hname, hparams⟩ := (isWord_of_isName hf.name).cut (isWord_of_isName hg.name) (hparen _)
    (hparen _) (List.append_cancel_left hrest)
  exact ⟨hty, String.toList_inj.mp hname, (commaText_legible legible_param rfl (by decide)
    (fun param _ => exists_head_param param) hf.params hg.params (List.append_cancel_left hparams)).1⟩

theorem eq_of_lines (hknown : ToldApart known)
    (hf : f.IsLegible known) (hg : g.IsLegible known) (h : f.lines = g.lines) : f = g := by
  unfold lines at h
  obtain ⟨hheader, hrest⟩ := List.cons.inj h
  have hblocks := List.append_cancel_right hrest
  rw [flatMap_blockLines, flatMap_blockLines] at hblocks
  have hlabelled := sections_inj isLabel hf.sections hg.sections hblocks
  have hnames : f.blocks.toList.map Block.name = g.blocks.toList.map Block.name := by
    have hlabels := congrArg (List.map Prod.fst) hlabelled
    have hinj : Function.Injective (· ++ ":" : String → String) := fun a b hab => by simpa using hab
    apply List.map_injective_iff.mpr hinj
    rw [List.map_map, List.map_map] at hlabels ⊢
    exact hlabels
  obtain ⟨hty, hname, hparams⟩ := header_inj hf hg hheader
  have hcontents : f.blocks = g.blocks := by
    apply Array.toList_inj.mp
    refine eq_of_map_eq hlabelled fun k b c hb hc hbc => ?_
    rw [Array.getElem?_toList] at hb hc
    have hsize : f.blocks.size = g.blocks.size := by simpa using congrArg List.length hnames
    exact block_eq hknown hf hg hparams (blockName_eq hnames) hsize hb hc hbc
  cases f
  cases g
  simp_all

/-- The names in all instructions are names of the language, also where parameters are read. -/
theorem isNamed (h : f.IsLegible known) {block index : Nat} {i : Inst} (hi : f.Has block index i) :
    i.IsNamed := by
  rcases h.insts block index i hi with ⟨rfl, hindex⟩ | hlegible
  · exact isNamed_openings h.params 0 i (List.mem_of_getElem? (h.opening hi hindex))
  · exact ⟨fun v hv => (hlegible.operands v hv).isNamed, hlegible.names⟩

theorem unbroken_blockName (h : f.IsLegible known) (s : Nat) : Unbroken (f.blockName s) := by
  by_cases hs : s < f.blocks.size
  · exact unbroken_of_isWord (h.isWord_blockName hs)
  · rw [blockName, Array.getElem?_eq_none (Nat.le_of_not_lt hs)]
    exact (by decide : Unbroken "?")

theorem unbroken_header (h : f.IsLegible known) :
    Unbroken ("define " ++ f.returnTy.text ++ " @" ++ f.name ++ "("
      ++ commaText (f.params.map fun (name, ty) => ty.text ++ " %" ++ name) ++ ") \x7b") := by
  have hname : ∀ {name}, Token.IsName name → Unbroken name :=
    fun hname => unbroken_of_isWord (isWord_of_isName hname)
  have hparams : Unbroken (commaText (f.params.map fun (name, ty) => ty.text ++ " %" ++ name)) := by
    refine unbroken_commaText (List.forall_mem_map.mpr fun (name, ty) hparam => ?_)
    have hparam := hname (h.params _ hparam)
    simp_all +decide
  simp +decide [hname h.name, hparams]

theorem unbroken_blockLines (h : f.IsLegible known) {id : Nat} {block : Block}
    (hblock : f.blocks[id]? = some block) : ∀ line ∈ f.blockLines block, Unbroken line ∧ line ≠ "" := by
  have hmem := Array.mem_of_getElem? hblock
  have hne : ∀ {line}, isLabel line = false → line ≠ "" := by
    rintro _ hline rfl
    cases hline
  refine List.forall_mem_append.mpr ⟨List.forall_mem_cons.mpr ⟨⟨?_, by simp⟩, ?_⟩, ?_⟩
  · simp +decide [unbroken_of_isWord (h.isWord_name hmem)]
  · refine List.forall_mem_map.mpr fun i hi => ⟨?_, hne i.isLabel_text⟩
    obtain ⟨index, hi⟩ := Array.getElem?_of_mem (Array.mem_toList_iff.mp hi)
    exact Inst.unbroken (h.isNamed ⟨block, hblock, hi⟩)
  · intro line hline
    obtain ⟨t, ht, rfl⟩ := Option.map_eq_some_iff.mp (Option.mem_toList.mp hline)
    refine ⟨Terminator.unbroken h.unbroken_blockName fun v hv => ?_, hne (t.isLabel_text _)⟩
    exact (h.terminators block hmem t ht v hv).isNamed

theorem unbroken_lines (h : f.IsLegible known) : ∀ line ∈ f.lines, Unbroken line ∧ line ≠ "" := by
  unfold lines
  refine List.forall_mem_append.mpr ⟨List.forall_mem_cons.mpr ⟨⟨h.unbroken_header, by simp⟩, ?_⟩, ?_⟩
  · intro line hline
    obtain ⟨block, hblock, hline⟩ := List.mem_flatMap.mp hline
    obtain ⟨id, hid⟩ := Array.getElem?_of_mem (Array.mem_toList_iff.mp hblock)
    exact h.unbroken_blockLines hid line hline
  · simp +decide

end IsLegible

end Function

/-! ## Modules -/

/-- A global variable that its line determines. -/
structure Global.IsLegible (known : Float → Prop) (g : Global) : Prop where
  name : Token.IsName g.name
  init : ∀ v ∈ g.init, v.IsLegible known

/-- A module whose text determines what is in it. -/
structure Module.IsLegible (known : Float → Prop) (m : Module) : Prop where
  globals : ∀ g ∈ m.globals, g.IsLegible known
  functions : ∀ f ∈ m.functions, f.IsLegible known

theorem Global.eq_of_text (hknown : ToldApart known)
    {g g' : Global} (hg : g.IsLegible known) (hg' : g'.IsLegible known) (h : g.text = g'.text) :
    g = g' := by
  have hequals : ∀ t, Ended (" = global ".toList ++ t) := fun t => .cons rfl ("= global ".toList ++ t)
  unfold text at h
  replace h := congrArg String.toList h
  simp only [String.toList_append, List.append_assoc] at h
  obtain ⟨hname, hrest⟩ := (isWord_of_isName hg.name).cut (isWord_of_isName hg'.name) (hequals _)
    (hequals _) (List.append_cancel_left h)
  obtain ⟨hty, hinit⟩ := Ty.text_cut (List.append_cancel_left hrest)
  rw [List.append_cancel_left_eq, String.toList_inj] at hinit
  have hvalue : g.init = g'.init := by
    have hne : ∀ {v : Value}, v.IsLegible known → v.text ≠ "zeroinitializer" := by
      intro v hv htext
      have hform := Value.formOf_text hv
      rw [htext] at hform
      cases v <;> cases hform
    cases hi : g.init with
    | none =>
      cases hi' : g'.init with
      | none => rfl
      | some w =>
        rw [hi, hi'] at hinit
        exact absurd hinit.symm (hne (hg'.init w hi'))
    | some v =>
      cases hi' : g'.init with
      | none =>
        rw [hi, hi'] at hinit
        exact absurd hinit (hne (hg.init v hi))
      | some w =>
        rw [hi, hi'] at hinit
        rw [(Value.legible hknown).inj (hg.init v hi) (hg'.init w hi') hinit]
  cases g
  cases g'
  simp_all [String.toList_inj]

theorem Global.unbroken_text {g : Global} (h : g.IsLegible known) : Unbroken g.text ∧ g.text ≠ "" := by
  have hname : Unbroken g.name := unbroken_of_isWord (isWord_of_isName h.name)
  have hinit : Unbroken ((g.init.map Value.text).getD "zeroinitializer") := by
    cases hi : g.init with
    | none => exact (by decide : Unbroken "zeroinitializer")
    | some v => exact Value.unbroken (h.init v hi).isNamed
  unfold text
  exact ⟨by simp +decide [hname, hinit], by simp⟩

namespace Module

variable {m m' : Module}

/-- The lines behind the first one: those of the global variables, and of each function with an empty
line before it. -/
theorem lines_eq (m : Module) : m.lines = ("; module " ++ m.name) :: (m.globals.map Global.text ++
    (m.functions.map fun f => ("", f.lines)).flatMap fun s => s.1 :: s.2) := by
  rw [lines, List.flatMap_map]
  rfl

theorem sections (hm : m.IsLegible known) : ∀ s ∈ m.functions.map fun f => ("", f.lines),
    (s.1 == "") = true ∧ ∀ line ∈ s.2, (line == "") = false := by
  refine List.forall_mem_map.mpr fun f hf => ⟨rfl, fun line hline => beq_false_of_ne ?_⟩
  exact ((hm.functions f hf).unbroken_lines line hline).2

theorem unbroken_contents (hm : m.IsLegible known) : ∀ line ∈ m.globals.map Global.text ++
    (m.functions.map fun f => ("", f.lines)).flatMap fun s => s.1 :: s.2, Unbroken line := by
  refine List.forall_mem_append.mpr ⟨?_, ?_⟩
  · exact List.forall_mem_map.mpr fun g hg => (Global.unbroken_text (hm.globals g hg)).1
  · rw [List.flatMap_map]
    intro line hline
    obtain ⟨f, hf, hline⟩ := List.mem_flatMap.mp hline
    rcases List.mem_cons.mp hline with rfl | hline
    · exact (by decide : Unbroken "")
    · exact ((hm.functions f hf).unbroken_lines line hline).1

/-- Modules of one name with legible contents are equal if their texts are. -/
theorem eq_of_text (hknown : ToldApart known)
    (hm : m.IsLegible known) (hm' : m'.IsLegible known) (hname : m.name = m'.name)
    (h : m.text = m'.text) : m = m' := by
  replace h := congrArg String.toList h
  rw [toList_text, toList_text, lines_eq, lines_eq, hname, List.flatMap_cons, List.flatMap_cons,
    List.append_cancel_left_eq] at h
  have hlines := lines_inj (unbroken_contents hm) (unbroken_contents hm') h
  have hglobal : ∀ {m : Module}, m.IsLegible known → ∀ line ∈ m.globals.map Global.text,
      (line == "") = false := fun hm =>
    List.forall_mem_map.mpr fun g hg => beq_false_of_ne (Global.unbroken_text (hm.globals g hg)).2
  have hfirst : ∀ (m : Module), ∀ line ∈ ((m.functions.map fun f => ("", f.lines)).flatMap fun s =>
      s.1 :: s.2).head?, (line == "") = true := by
    intro m line hline
    cases hf : m.functions with
    | nil => simp [hf] at hline
    | cons f rest =>
      rw [hf] at hline
      cases hline
      rfl
  obtain ⟨hglobals, hfunctions⟩ := cut_of_stops (hglobal hm) (hglobal hm') (hfirst m) (hfirst m') hlines
  replace hfunctions := sections_inj (· == "") (sections hm) (sections hm') hfunctions
  have hg : m.globals = m'.globals := by
    refine eq_of_map_eq hglobals fun k g g' hk hk' htext => ?_
    exact Global.eq_of_text hknown (hm.globals g (List.mem_of_getElem? hk))
      (hm'.globals g' (List.mem_of_getElem? hk')) htext
  have hf : m.functions = m'.functions := by
    refine eq_of_map_eq hfunctions fun k f f' hk hk' hlines => ?_
    exact Function.IsLegible.eq_of_lines hknown (hm.functions f (List.mem_of_getElem? hk))
      (hm'.functions f' (List.mem_of_getElem? hk')) (Prod.mk.inj hlines).2
  cases m
  cases m'
  simp_all

end Module

end ShaderLang.Ir
