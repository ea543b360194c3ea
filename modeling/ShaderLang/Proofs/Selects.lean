import ShaderLang.Proofs.Clean

/-!
# What a swizzle selects

A swizzle selects one to four lanes of a vector, each by its letter (`Selects`). The findings are
made one by one: from the base, from the characters, from the lanes that those name, and from the
length. Together they are none exactly for the selections and for the empty text, in which no letter
is wrong (`issues_eq_nil_iff_selects`); and where they are none, the text has a mask, one lane for
each letter, and the type of a selection of that many lanes.
-/

namespace ShaderLang.Swizzle

/-- The letters of the lanes, in the order of the lanes. -/
def letters : List Char :=
  ['x', 'y', 'z', 'w']

/-- The text selects one to four lanes of a base, which has all of them. -/
structure Selects (base : Ty) (field : String) : Prop where
  isVector : base.isVector = true
  length_pos : 0 < field.length
  length_le : field.length ≤ 4
  named : ∀ letter ∈ field.toList, ∃ lane < base.lanes, letters[lane]? = some letter

theorem lane?_eq_some_iff {letter : Char} {lane : Nat} :
    lane? letter = some lane ↔ letters[lane]? = some letter := by
  constructor
  · intro h
    unfold lane? at h
    split at h <;> cases h <;> rfl
  · intro h
    match lane, h with
    | 0, h | 1, h | 2, h | 3, h =>
      cases h
      rfl

/-- Letters that all name lanes have a mask. -/
theorem exists_mapM_lane? {text : List Char} (h : ∀ letter ∈ text, (lane? letter).isSome) :
    ∃ mask, text.mapM lane? = some mask := by
  induction text with
  | nil => exact ⟨[], rfl⟩
  | cons letter rest ih =>
    obtain ⟨hletter, hrest⟩ := List.forall_mem_cons.mp h
    obtain ⟨lane, hlane⟩ := Option.isSome_iff_exists.mp hletter
    obtain ⟨lanes, hlanes⟩ := ih hrest
    exact ⟨lane :: lanes, mapM_lane?_cons.mpr ⟨lane, lanes, hlane, hlanes, rfl⟩⟩

variable {base : Ty} {field : String} {mask : List Nat}

/-- The lanes of a mask are those of the letters, one by one. -/
theorem forall₂_mask (h : mask? field = some mask) :
    List.Forall₂ (fun letter lane => letters[lane]? = some letter) field.toList mask :=
  (Lowering.forall₂_of_mapM h).imp fun _ _ => lane?_eq_some_iff.mp

/-- No letter is wrong and none is out of bound if and only if each is the letter of a lane below
the width. The two findings are made apart: the second one passes over letters that name no lane. -/
theorem named_iff (text : List Char) (width : Nat) :
    (text.mapM lane?).isSome ∧ (∀ lane ∈ text.filterMap lane?, lane < width) ↔
      ∀ letter ∈ text, ∃ lane < width, letters[lane]? = some letter := by
  constructor
  · rintro ⟨hsome, hbound⟩ letter hletter
    obtain ⟨mask, hmask⟩ := Option.isSome_iff_exists.mp hsome
    have hfilter := (mapM_lane?_eq_some hmask).2.2.1
    have hall := Lowering.forall₂_of_mapM hmask
    obtain ⟨i, hi, rfl⟩ := List.getElem_of_mem hletter
    have hi' : i < mask.length := hall.length_eq ▸ hi
    rw [hfilter] at hbound
    exact ⟨mask[i], hbound _ (List.getElem_mem hi'), lane?_eq_some_iff.mp (hall.get hi hi')⟩
  · intro h
    constructor
    · have hsome : ∀ letter ∈ text, (lane? letter).isSome := by
        intro letter hletter
        obtain ⟨lane, -, hlane⟩ := h letter hletter
        rw [lane?_eq_some_iff.mpr hlane]
        rfl
      obtain ⟨mask, hmask⟩ := exists_mapM_lane? hsome
      rw [hmask]
      rfl
    · intro lane hlane
      obtain ⟨letter, hletter, hname⟩ := List.mem_filterMap.mp hlane
      obtain ⟨lane', hlt, hlane'⟩ := h letter hletter
      have heq : some lane = some lane' := hname.symm.trans (lane?_eq_some_iff.mpr hlane')
      cases heq
      exact hlt

@[simp] theorem issueIf_eq_nil {condition : Bool} {issue : Issue} :
    issueIf condition issue = [] ↔ condition = false := by
  cases condition <;> simp [issueIf]

/-- Each finding is missing exactly where what it is about is right. -/
theorem issues_eq_nil_iff (hbase : base ≠ .error) :
    issues base field = [] ↔ base.isVector = true ∧ field.length ≤ 4 ∧
      ∀ letter ∈ field.toList, ∃ lane < base.lanes, letters[lane]? = some letter := by
  have hlength : decide (maxLength < field.length) = false ↔ field.length ≤ 4 := by
    rw [decide_eq_false_iff_not, Nat.not_lt, maxLength]
  have hmask : (mask? field).isNone = false ↔ (field.toList.mapM lane?).isSome := by
    simp [mask?]
  simp only [issues, if_neg hbase, List.append_eq_nil_iff, issueIf_eq_nil, hlength, hmask,
    ← named_iff]
  cases base.isVector
  · simp
  · simp only [Bool.not_true, Bool.true_and, List.any_eq_false, decide_eq_true_eq, Nat.not_le,
      true_and]
    tauto

/-- Nothing is wrong with a swizzle on a base that has a type if and only if it is a selection or
selects nothing from a vector. Then it has a mask of one lane for each letter, all below the width,
and the type of a selection of that many lanes. -/
theorem issues_eq_nil_iff_selects (hbase : base ≠ .error) (field : String) :
    (issues base field = [] ↔ Selects base field ∨ base.isVector = true ∧ field = "") ∧
    (issues base field = [] → ∃ mask, mask? field = some mask ∧ mask.length = field.length ∧
      List.Forall₂ (fun letter lane => letters[lane]? = some letter) field.toList mask ∧
      (∀ lane ∈ mask, lane < base.lanes) ∧ ty base field = resultTy mask.length) := by
  refine ⟨?_, fun h => ?_⟩
  · rw [issues_eq_nil_iff hbase]
    constructor
    · rintro ⟨hvector, hlength, hnamed⟩
      by_cases hempty : field = ""
      · exact .inr ⟨hvector, hempty⟩
      · have hpos : 0 < field.length :=
          Nat.pos_of_ne_zero fun h => hempty (String.length_eq_zero_iff.mp h)
        exact .inl ⟨hvector, hpos, hlength, hnamed⟩
    · rintro (h | ⟨hvector, rfl⟩)
      · exact ⟨h.isVector, h.length_le, h.named⟩
      · exact ⟨hvector, Nat.zero_le 4, by simp⟩
  · obtain ⟨-, mask, hmask, -, hbound, hty⟩ := of_issues_eq_nil h hbase
    exact ⟨mask, hmask, (mask?_eq_some hmask).2.1.symm, forall₂_mask hmask, hbound, hty⟩

/-- Nothing is wrong with the empty text on a vector, which selects nothing and has no type. -/
theorem issues_eq_nil_iff_selects_of_empty : Ty.vec2 ≠ .error ∧ issues .vec2 "" = [] ∧
    ¬ Selects .vec2 "" ∧ ty .vec2 "" = .error := by
  have hbase : Ty.vec2 ≠ .error := by decide
  have hnone := (issues_eq_nil_iff_selects hbase "").1.mpr (.inr ⟨rfl, rfl⟩)
  exact ⟨hbase, hnone, fun h => absurd h.length_pos (by decide), by decide⟩

end ShaderLang.Swizzle
