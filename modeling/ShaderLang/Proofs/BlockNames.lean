import ShaderLang.Proofs.Graph
import ShaderLang.Proofs.Operations

/-!
# Names of blocks

What the blocks of an open function are called, after any operations. A block is named after a stem,
with the number of blocks before it that have the same stem (`Operation.blockNames_performAll`).
Such names differ as long as no stem is the name that another stem gives with a number
(`Operation.nodup_blockNames_iff`); the stems of the lowering end in no digit, so that they never
clash, but any text may be a stem.
-/

namespace ShaderLang.Ir

/-! ## Numbered names -/

/-- Stems, each with the number of times that it has come before. -/
def numbered (earlier : List String) : List String → List (String × Nat)
  | [] => []
  | stem :: rest => (stem, earlier.count stem) :: numbered (stem :: earlier) rest

theorem mem_numbered {earlier stems : List String} {stem : String} {n : Nat} :
    (stem, n) ∈ numbered earlier stems ↔
      earlier.count stem ≤ n ∧ n < earlier.count stem + stems.count stem := by
  induction stems generalizing earlier with
  | nil => simp [numbered]
  | cons first rest ih =>
    rw [numbered, List.mem_cons, ih]
    by_cases h : first = stem
    · subst h
      simp only [Prod.mk.injEq, true_and, List.count_cons_self]
      omega
    · have hne : stem ≠ first := Ne.symm h
      simp [h, hne]

theorem nodup_numbered (earlier stems : List String) : (numbered earlier stems).Nodup := by
  induction stems generalizing earlier with
  | nil => exact List.nodup_nil
  | cons first rest ih =>
    refine List.nodup_cons.mpr ⟨fun hmem => ?_, ih _⟩
    have hle := (mem_numbered.mp hmem).1
    rw [List.count_cons_self] at hle
    omega

theorem length_numbered (earlier stems : List String) :
    (numbered earlier stems).length = stems.length := by
  induction stems generalizing earlier with
  | nil => rfl
  | cons first rest ih => exact congrArg (· + 1) (ih _)

/-- The names of blocks that are created one after the other, each with its stem. -/
def namesOf (stems : List String) : List String :=
  (numbered [] stems).map fun (stem, n) => numberedName stem n

/-- No stem is what another one becomes with a number that it gets. -/
def Apart (stems : List String) : Prop :=
  ∀ stem n, 0 < n → n < stems.count stem → numberedName stem n ∉ stems

/-- Names differ if and only if none of them is given as a stem too. -/
theorem nodup_namesOf_iff (stems : List String) : (namesOf stems).Nodup ↔ Apart stems := by
  have hmem {stem : String} {n : Nat} : (stem, n) ∈ numbered [] stems ↔ n < stems.count stem := by
    simp [mem_numbered]
  rw [namesOf, List.nodup_map_iff_inj_on (nodup_numbered [] stems)]
  constructor
  · intro hinj stem n hpos hlt hclash
    have hsame := hinj (stem, n) (hmem.mpr hlt) (numberedName stem n, 0)
      (hmem.mpr (List.count_pos_iff.mpr hclash)) rfl
    exact absurd (congrArg Prod.snd hsame) (Nat.ne_of_gt hpos)
  · rintro hapart ⟨stem, n⟩ hn ⟨stem', n'⟩ hn' heq
    rw [hmem] at hn hn'
    change numberedName stem n = numberedName stem' n' at heq
    rcases Nat.eq_zero_or_pos n with rfl | hpos
    · rcases Nat.eq_zero_or_pos n' with rfl | hpos'
      · exact congrArg (·, 0) heq
      · have hstem : numberedName stem 0 ∈ stems := List.count_pos_iff.mp hn
        exact absurd (heq ▸ hstem) (hapart stem' n' hpos' hn')
    · rcases Nat.eq_zero_or_pos n' with rfl | hpos'
      · have hstem : numberedName stem' 0 ∈ stems := List.count_pos_iff.mp hn'
        exact absurd (heq ▸ hstem) (hapart stem n hpos hn)
      · obtain ⟨rfl, rfl⟩ := numberedName_inj_of_pos hpos hpos' heq
        rfl

/-! ## The names of a builder -/

namespace Builder

/-- The names of the blocks of the open function. -/
def blockNames (b : Builder) : List String :=
  b.openFn.elim [] (·.blocks.toList.map Block.name)

/-- A builder whose open function has blocks of the same names. -/
structure KeepsNames (b b' : Builder) : Prop where
  openFn : b'.openFn.isSome = b.openFn.isSome
  stems : b'.stems = b.stems
  names : b'.blockNames = b.blockNames

variable {b : Builder}

theorem blockNames_addBlock (stem : String) (h : b.openFn.isSome) :
    (b.addBlock stem).blockNames = b.blockNames ++ [numberedName stem (b.stems.count stem)] := by
  obtain ⟨f, hf⟩ := Option.isSome_iff_exists.mp h
  simp [blockNames, addBlock, hf, Block.empty, freshName, numberedName]

namespace KeepsNames

theorem modifyBlock (b : Builder) (id : Nat) {change : Block → Block}
    (h : ∀ block, (change block).name = block.name) : b.KeepsNames (b.modifyBlock id change) where
  openFn := by simp [Builder.modifyBlock]
  stems := rfl
  names := by
    unfold blockNames Builder.modifyBlock
    cases b.openFn with
    | none => rfl
    | some f =>
      simp only [Option.map_some, Option.elim_some]
      apply List.ext_getElem?
      intro j
      rw [List.getElem?_map, List.getElem?_map, Array.getElem?_toList, Array.getElem?_toList,
        Array.getElem?_modify]
      split
      · cases f.blocks[j]? <;> simp [h]
      · rfl

theorem append (b : Builder) (code : List Inst) (next : Nat) :
    b.KeepsNames (b.append code next) := by
  unfold Builder.append
  split
  · next id _ =>
    have h : b.KeepsNames (b.modifyBlock id (·.append code)) := modifyBlock b id fun _ => rfl
    exact ⟨h.openFn, h.stems, h.names⟩
  · exact ⟨rfl, rfl, rfl⟩

theorem close (b : Builder) (t : Terminator) : b.KeepsNames (b.close t) := by
  unfold Builder.close
  split
  · exact modifyBlock b _ fun _ => rfl
  · exact ⟨rfl, rfl, rfl⟩

theorem allocIn (b : Builder) (id : Nat) (ty : Ty) (name : String) :
    b.KeepsNames (b.allocIn id ty name) := by
  have h : b.KeepsNames (b.modifyBlock id (·.append [.alloca b.nextTemp ty name])) :=
    modifyBlock b id fun _ => rfl
  exact ⟨h.openFn, h.stems, h.names⟩

end KeepsNames

end Builder

/-! ## Names after operations -/

namespace Operation

/-- What an operation names a block after. -/
def stem? : Operation → Option String
  | createBlock stem => some stem
  | _ => none

variable {b : Builder}

open Builder (KeepsNames)

theorem keepsNames_emit (inst : Inst) (b : Builder) : b.KeepsNames ((Build.emit inst).after b) := by
  rcases Build.after_emit inst b with h | ⟨-, h⟩
  · rw [h]
    exact ⟨rfl, rfl, rfl⟩
  · rw [h]
    exact .append b _ _

theorem keepsNames_emitValue (inst : Nat → Inst) (b : Builder) :
    b.KeepsNames ((Build.emitValue inst).after b) := by
  rcases Build.after_emitValue inst b with h | ⟨-, h⟩
  · rw [h]
    exact ⟨rfl, rfl, rfl⟩
  · rw [h]
    exact .append b _ _

theorem keepsNames_terminate (t : Terminator) (b : Builder) :
    b.KeepsNames ((Build.terminate t).after b) := by
  rcases Build.after_terminate t b with h | ⟨-, h⟩
  · rw [h]
    exact ⟨rfl, rfl, rfl⟩
  · rw [h]
    exact .close b t

/-- As long as the function is open, names come from nothing but the creation of blocks. -/
theorem keepsNames_perform {op : Operation} (hopen : b.openFn.isSome) (hop : op ≠ .finishFunction)
    (hstem : op.stem? = none) : b.KeepsNames (op.perform b) := by
  cases op with
  | createBlock stem => cases hstem
  | finishFunction => exact absurd rfl hop
  | addGlobal | position => exact ⟨rfl, rfl, rfl⟩
  | beginFunction name params returnTy =>
    rcases Build.after_beginFunction name params returnTy b with h | ⟨hnone, -⟩
    · rw [perform, h]
      exact ⟨rfl, rfl, rfl⟩
    · rw [hnone] at hopen
      cases hopen
  | allocaIn id ty name =>
    rcases Build.after_allocaIn id ty name b with ⟨-, h⟩ | ⟨-, h⟩
    · rw [perform, h]
      exact ⟨rfl, rfl, rfl⟩
    · rw [perform, h]
      exact .allocIn b id ty name
  | alloca | load | binary | compare | insertLane | shuffle | elementAddress =>
    exact keepsNames_emitValue _ b
  | store => exact keepsNames_emit _ b
  | convert op value =>
    rw [perform, Build.convert_eq]
    split
    · exact ⟨rfl, rfl, rfl⟩
    · exact keepsNames_emitValue _ b
  | extractLane vector lane =>
    rw [perform, Build.extractLane_eq]
    split
    · exact ⟨rfl, rfl, rfl⟩
    · exact keepsNames_emitValue _ b
  | call callee arguments givesValue =>
    rw [perform, Build.call]
    split
    · rw [Build.after_bind_pure]
      exact keepsNames_emitValue _ b
    · rw [Build.after_bind_pure]
      exact keepsNames_emit _ b
  | branch | condBranch | switch | ret | unreachable => exact keepsNames_terminate _ b

/-- Each block that is created in the open function gets the name of its stem with its number. -/
theorem blockNames_performAll {ops : List Operation} (hopen : b.openFn.isSome)
    (hops : .finishFunction ∉ ops) :
    (performAll ops b).openFn.isSome ∧ (performAll ops b).blockNames =
      b.blockNames ++
        (numbered b.stems (ops.filterMap stem?)).map fun (stem, n) => numberedName stem n := by
  induction ops generalizing b with
  | nil => exact ⟨hopen, (List.append_nil _).symm⟩
  | cons op rest ih =>
    rw [List.mem_cons, not_or] at hops
    cases hstem : op.stem? with
    | none =>
      have hkeeps := keepsNames_perform hopen (Ne.symm hops.1) hstem
      rw [List.filterMap_cons_none hstem, ← hkeeps.stems, ← hkeeps.names]
      exact ih (hkeeps.openFn.trans hopen) hops.2
    | some stem =>
      obtain rfl : op = .createBlock stem := by
        cases op <;> cases hstem
        rfl
      have hperform : (createBlock stem).perform b = b.addBlock stem := by
        rw [perform, Build.after, Build.createBlock_eq hopen]
      obtain ⟨hlast, hnames⟩ := ih (b := b.addBlock stem) (by simpa using hopen) hops.2
      rw [performAll, List.foldl_cons, hperform]
      refine ⟨hlast, hnames.trans ?_⟩
      rw [Builder.blockNames_addBlock stem hopen, List.filterMap_cons_some hstem, List.append_assoc]
      rfl

/-- The blocks of an open function get distinct names if and only if none of them is created after
what is the name of another one with a number. -/
theorem nodup_blockNames_iff {ops : List Operation} (hnone : b.openFn = none)
    (hops : .finishFunction ∉ ops) (name : String) (params : List (String × Ty)) (returnTy : Ty) :
    let names := (performAll (.beginFunction name params returnTy :: ops) b).blockNames
    names.length = (ops.filterMap stem?).length ∧
    (names.Nodup ↔ Apart (ops.filterMap stem?)) := by
  have hbegin : performAll (.beginFunction name params returnTy :: ops) b =
      performAll ops (b.begin name params returnTy) := by
    rw [performAll, List.foldl_cons, perform, Build.after, Build.beginFunction_eq hnone]
    rfl
  have hnames : (performAll ops (b.begin name params returnTy)).blockNames =
      namesOf (ops.filterMap stem?) := (blockNames_performAll rfl hops).2
  dsimp only
  rw [hbegin, hnames]
  exact ⟨by rw [namesOf, List.length_map, length_numbered], nodup_namesOf_iff _⟩

/-- The second block named after `a` and the first one named after `a.1` have the same name. -/
theorem nodup_blockNames_iff_of_dotted :
    let ops := [createBlock "a", createBlock "a", createBlock "a.1"]
    (Builder.new "sample").openFn = none ∧ .finishFunction ∉ ops ∧
    ¬ (performAll (.beginFunction "f" [] .void :: ops) (.new "sample")).blockNames.Nodup := by
  have hops : finishFunction ∉ [createBlock "a", createBlock "a", createBlock "a.1"] := by simp
  refine ⟨rfl, hops, fun hnodup => ?_⟩
  have hapart := (nodup_blockNames_iff rfl hops "f" [] .void).2.mp hnodup
  exact hapart "a" 1 (by decide) (by decide) (by decide)

end Operation

end ShaderLang.Ir
