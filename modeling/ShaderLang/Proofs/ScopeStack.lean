import Mathlib
import ShaderLang.Scope

/-!
# The symbol table as a stack of scopes

What a name means after any row of operations on a new symbol table, told from the operations alone
(`SymbolTable.isScopeStack`). A declaration *stands* if its scope has not been closed since, that is
if at no time since fewer scopes were open than when it was made; the level of a scope is the number
of scopes around it. What lies between a push and its matching pop leaves no trace.
-/

namespace ShaderLang.SymbolTable

/-- What can be done to a symbol table. -/
inductive Operation where
  | push
  | pop
  | declare (symbol : Symbol)

namespace Operation

/-- The table after an operation. There is nothing to close but the scopes within the global one. -/
def perform : Operation → SymbolTable → SymbolTable
  | push, t => t.push
  | pop, t => (t.pop?.map Prod.snd).getD t
  | declare symbol, t => t.declare symbol

/-- The table after operations. -/
def performAll (ops : List Operation) (t : SymbolTable) : SymbolTable :=
  ops.foldl (fun t op => op.perform t) t

/-- How many scopes are open within the global one after an operation, if there were `n` before. -/
def levelAfter (n : Nat) : Operation → Nat
  | push => n + 1
  | pop => n - 1
  | declare _ => n

/-- How many scopes operations leave open within the global one. -/
def depth (ops : List Operation) : Nat :=
  ops.foldl levelAfter 0

/-- The operation at place `i` declares a symbol, in a scope of this level that is still open. -/
structure Stands (ops : List Operation) (level i : Nat) (symbol : Symbol) : Prop where
  declares : ops[i]? = some (declare symbol)
  level_eq : depth (ops.take i) = level
  isOpen : ∀ j, i ≤ j → level ≤ depth (ops.take j)

/-- A symbol is the latest one of its name that stands in a scope of this level. -/
def Latest (ops : List Operation) (level : Nat) (symbol : Symbol) : Prop :=
  ∃ i, Stands ops level i symbol ∧
    ∀ j other, Stands ops level j other → other.name = symbol.name → j ≤ i

/-- Whether an operation opens a scope. -/
def opens : Operation → Bool
  | push => true
  | _ => false

/-- Whether an operation closes a scope. -/
def closes : Operation → Bool
  | pop => true
  | _ => false

/-- Operations that close as many scopes as they open, and none before they have opened it: what
stands between a push and the matching pop. -/
structure Balanced (ops : List Operation) : Prop where
  never_below : ∀ k, (ops.take k).countP closes ≤ (ops.take k).countP opens
  matched : ops.countP closes = ops.countP opens

variable {ops : List Operation} {op : Operation} {k i n : Nat} {s r : Symbol} {name : String}

/-! ## One more operation -/

theorem performAll_concat (ops : List Operation) (op : Operation) (t : SymbolTable) :
    performAll (ops ++ [op]) t = op.perform (performAll ops t) := by
  simp [performAll]

theorem depth_concat (ops : List Operation) (op : Operation) :
    depth (ops ++ [op]) = levelAfter (depth ops) op := by
  simp [depth]

namespace Stands

theorem lt_length (h : Stands ops k i s) : i < ops.length :=
  (List.getElem?_eq_some_iff.mp h.declares).1

theorem le_depth (h : Stands ops k i s) : k ≤ depth ops := by
  have hend := h.isOpen ops.length (Nat.le_of_lt h.lt_length)
  rwa [List.take_length] at hend

/-- An earlier declaration goes on standing if its scope is not the one that is closed. -/
theorem concat (h : Stands ops k i s) (hk : k ≤ depth (ops ++ [op])) :
    Stands (ops ++ [op]) k i s := by
  have hi := h.lt_length
  refine ⟨?_, ?_, fun j hj => ?_⟩
  · rw [List.getElem?_append_left hi]
    exact h.declares
  · rw [List.take_append_of_le_length (Nat.le_of_lt hi)]
    exact h.level_eq
  · rcases Nat.lt_or_ge ops.length j with hlt | hle
    · rw [List.take_of_length_le (by simpa using hlt)]
      exact hk
    · rw [List.take_append_of_le_length hle]
      exact h.isOpen j hj

theorem of_concat (h : Stands (ops ++ [op]) k i s) (hi : i < ops.length) : Stands ops k i s := by
  refine ⟨?_, ?_, fun j hj => ?_⟩
  · have hdeclares := h.declares
    rwa [List.getElem?_append_left hi] at hdeclares
  · have hlevel := h.level_eq
    rwa [List.take_append_of_le_length (Nat.le_of_lt hi)] at hlevel
  · rcases Nat.lt_or_ge ops.length j with hlt | hle
    · have hlast := h.isOpen ops.length (Nat.le_of_lt hi)
      rw [List.take_append_of_le_length (Nat.le_refl _)] at hlast
      rwa [List.take_of_length_le (Nat.le_of_lt hlt), ← List.take_length (l := ops)]
    · have hthen := h.isOpen j hj
      rwa [List.take_append_of_le_length hle] at hthen

/-- A symbol that is declared last stands in the innermost scope. -/
theorem last (ops : List Operation) (s : Symbol) :
    Stands (ops ++ [declare s]) (depth ops) ops.length s := by
  refine ⟨by simp, by simp, fun j hj => ?_⟩
  rcases Nat.lt_or_ge ops.length j with hlt | hle
  · rw [List.take_of_length_le (by simpa using hlt), depth_concat]
    exact Nat.le_refl _
  · rw [Nat.le_antisymm hle hj, List.take_left]

theorem eq_last (h : Stands (ops ++ [op]) k i s) (hi : ¬ i < ops.length) :
    i = ops.length ∧ op = declare s ∧ k = depth ops := by
  have hlt := h.lt_length
  rw [List.length_append, List.length_singleton] at hlt
  obtain rfl : i = ops.length := by omega
  have hdeclares := h.declares
  have hlevel := h.level_eq
  rw [List.getElem?_concat_length, Option.some.injEq] at hdeclares
  rw [List.take_left] at hlevel
  exact ⟨rfl, hdeclares, hlevel.symm⟩

end Stands

/-- What stands after one more operation: what stood before in a scope that is still open, and the
symbol that the operation declares. -/
theorem stands_concat : Stands (ops ++ [op]) k i s ↔
    (Stands ops k i s ∧ k ≤ depth (ops ++ [op])) ∨
      (i = ops.length ∧ op = declare s ∧ k = depth ops) := by
  constructor
  · intro h
    by_cases hi : i < ops.length
    · exact .inl ⟨h.of_concat hi, h.le_depth⟩
    · exact .inr (h.eq_last hi)
  · rintro (⟨h, hk⟩ | ⟨rfl, rfl, rfl⟩)
    · exact h.concat hk
    · exact .last ops s

theorem Latest.le_depth (h : Latest ops k s) : k ≤ depth ops := by
  obtain ⟨i, hi, -⟩ := h
  exact hi.le_depth

/-- To open or to close a scope changes nothing in the scopes that stay open. -/
theorem latest_concat (op : Operation) (hop : ∀ s, op ≠ declare s) :
    Latest (ops ++ [op]) k s ↔ Latest ops k s ∧ k ≤ depth (ops ++ [op]) := by
  have hstands {i : Nat} {s : Symbol} :
      Stands (ops ++ [op]) k i s ↔ Stands ops k i s ∧ k ≤ depth (ops ++ [op]) := by
    rw [stands_concat, or_iff_left]
    rintro ⟨-, hop', -⟩
    exact hop s hop'
  constructor
  · rintro ⟨i, hi, hlast⟩
    have hk := (hstands.mp hi).2
    exact ⟨⟨i, (hstands.mp hi).1, fun j r hr => hlast j r (hstands.mpr ⟨hr, hk⟩)⟩, hk⟩
  · rintro ⟨⟨i, hi, hlast⟩, hk⟩
    exact ⟨i, hstands.mpr ⟨hi, hk⟩, fun j r hr => hlast j r (hstands.mp hr).1⟩

/-- A declared symbol takes the place of the one that was the latest of its name in the innermost
scope. -/
theorem latest_declare (hk : k ≤ depth ops) :
    Latest (ops ++ [declare r]) k s ↔
      if k = depth ops ∧ r.name = s.name then s = r else Latest ops k s := by
  have hdepth : k ≤ depth (ops ++ [declare r]) := by
    rw [depth_concat]
    exact hk
  split
  · next hsame =>
    obtain ⟨rfl, hname⟩ := hsame
    constructor
    · rintro ⟨i, hi, hlast⟩
      have hi' := hlast ops.length r (.last ops r) hname
      obtain ⟨-, hop, -⟩ := hi.eq_last (Nat.not_lt.mpr hi')
      injection hop with hr
      exact hr.symm
    · rintro rfl
      refine ⟨ops.length, .last ops s, fun j t ht _ => ?_⟩
      have hlt := ht.lt_length
      rw [List.length_append, List.length_singleton] at hlt
      omega
  · next hother =>
    -- Where it is not of this name in this scope, the new declaration does not count.
    have hstands {i : Nat} {t : Symbol} (ht : t.name = s.name) :
        Stands (ops ++ [declare r]) k i t ↔ Stands ops k i t := by
      rw [stands_concat, or_iff_left, and_iff_left hdepth]
      rintro ⟨-, hop, hk'⟩
      injection hop with hr
      exact hother ⟨hk', hr ▸ ht⟩
    constructor
    · rintro ⟨i, hi, hlast⟩
      exact ⟨i, (hstands rfl).mp hi, fun j t ht hname => hlast j t ((hstands hname).mpr ht) hname⟩
    · rintro ⟨i, hi, hlast⟩
      exact ⟨i, (hstands rfl).mpr hi, fun j t ht hname => hlast j t ((hstands hname).mp ht) hname⟩

end Operation

/-! ## The scopes of a table -/

variable {ops : List Operation} {k n : Nat} {s : Symbol} {name : String} {sc : Scope}
  {scopes : List Scope}

open Operation

/-- A scope knows the latest symbols that stand at this level. -/
def Tells (ops : List Operation) (level : Nat) (sc : Scope) : Prop :=
  ∀ name s, sc.find? name = some s ↔ s.name = name ∧ Latest ops level s

/-- Scopes, the innermost one first, know the latest symbols that stand at their levels. -/
def Reflect (ops : List Operation) : List Scope → Prop
  | [] => True
  | sc :: outer => Tells ops outer.length sc ∧ Reflect ops outer

theorem Tells.congr {ops' : List Operation} (h : Tells ops k sc)
    (hsame : ∀ s, Latest ops' k s ↔ Latest ops k s) : Tells ops' k sc :=
  fun name s => by rw [h name s, hsame s]

/-- Scopes in which the same symbols are the latest ones know these as well. -/
theorem Reflect.congr {ops' : List Operation} (h : Reflect ops scopes)
    (hsame : ∀ k < scopes.length, ∀ s, Latest ops' k s ↔ Latest ops k s) : Reflect ops' scopes := by
  induction scopes with
  | nil => trivial
  | cons sc outer ih =>
    exact ⟨h.1.congr (hsame outer.length (by simp)),
      ih h.2 fun k hk => hsame k (Nat.lt_succ_of_lt hk)⟩

/-- Scopes stay as they are where others are opened or closed within them. -/
theorem Reflect.concat (h : Reflect ops scopes) (op : Operation) (hop : ∀ s, op ≠ .declare s)
    (hlength : scopes.length ≤ depth (ops ++ [op]) + 1) : Reflect (ops ++ [op]) scopes :=
  h.congr fun k hk s => (latest_concat op hop).trans (and_iff_left (by omega))

/-- A scope that has just been opened knows nothing. -/
theorem tells_empty (ops : List Operation) : Tells (ops ++ [.push]) (depth ops + 1) .empty := by
  intro name s
  refine ⟨nofun, fun ⟨_, hlatest⟩ => ?_⟩
  have hle := ((latest_concat .push fun _ => nofun).mp hlatest).1.le_depth
  omega

/-- The innermost scope knows the symbol that is declared in it. -/
theorem Tells.insert (h : Tells ops (depth ops) sc) (r : Symbol) :
    Tells (ops ++ [.declare r]) (depth ops) (sc.insert r) := by
  intro name s
  rw [Scope.find?_insert, latest_declare (Nat.le_refl _)]
  split
  · next hname =>
    rw [Option.some.injEq]
    constructor
    · rintro rfl
      exact ⟨hname, by simp⟩
    · rintro ⟨rfl, hs⟩
      rw [if_pos ⟨rfl, hname⟩] at hs
      exact hs.symm
  · next hname =>
    rw [h name s]
    refine and_congr_right fun hs => ?_
    subst hs
    rw [if_neg fun hsame => hname hsame.2]

/-- The scopes around the innermost one know the same symbols after a declaration. -/
theorem Reflect.declare (h : Reflect ops scopes) (hlength : scopes.length = depth ops) (r : Symbol) :
    Reflect (ops ++ [.declare r]) scopes :=
  h.congr fun k hk s => by
    rw [latest_declare (by omega), if_neg]
    omega

/-- After any operations on a new table, its scopes know what stands in them, and there are as many
of them as are still open. -/
theorem reflect_performAll (ops : List Operation) :
    (performAll ops empty).outer.length = depth ops ∧
      Reflect ops ((performAll ops empty).inner :: (performAll ops empty).outer) := by
  induction ops using List.reverseRecOn with
  | nil =>
    refine ⟨rfl, fun name s => ⟨nofun, ?_⟩, trivial⟩
    rintro ⟨-, i, hi, -⟩
    cases hi.lt_length
  | append_singleton ops op ih =>
    rw [performAll_concat]
    generalize performAll ops empty = t at ih
    obtain ⟨hlength, hreflect⟩ := ih
    have ⟨htells, houter⟩ := hreflect
    have hdepth := depth_concat ops op
    cases op with
    | push =>
      rw [levelAfter] at hdepth
      refine ⟨by rw [hdepth, ← hlength]; rfl, ?_, ?_⟩
      · have hempty := tells_empty ops
        rwa [← hlength] at hempty
      · refine hreflect.concat .push (fun _ => nofun) ?_
        rw [hdepth, List.length_cons, hlength]
        exact Nat.le_succ _
    | pop =>
      rw [levelAfter] at hdepth
      obtain ⟨inner, outer⟩ := t
      cases outer with
      | nil =>
        have hzero : depth ops = 0 := hlength.symm
        rw [hzero] at hdepth
        exact ⟨hdepth.symm, hreflect.concat .pop (fun _ => nofun) (Nat.le_add_left _ _)⟩
      | cons next outer =>
        have hsucc : outer.length + 1 = depth ops := hlength
        refine ⟨?_, houter.concat .pop (fun _ => nofun) ?_⟩
        · change outer.length = _
          omega
        · rw [List.length_cons]
          omega
    | declare r =>
      rw [levelAfter] at hdepth
      rw [hlength] at htells
      refine ⟨hlength.trans hdepth.symm, ?_, houter.declare hlength r⟩
      change Tells _ t.outer.length (t.inner.insert r)
      rw [hlength]
      exact htells.insert r

/-- A name means the latest symbol that stands in the innermost scope that has one. -/
theorem Reflect.findSome?_eq_some_iff (h : Reflect ops scopes) :
    scopes.findSome? (·.find? name) = some s ↔
      s.name = name ∧ ∃ level < scopes.length, Latest ops level s ∧
        ∀ k < scopes.length, ∀ r, Latest ops k r → r.name = name → k ≤ level := by
  induction scopes with
  | nil => simp
  | cons sc outer ih =>
    rw [List.findSome?_cons, List.length_cons]
    cases hfind : sc.find? name with
    | some r =>
      obtain ⟨hname, hlatest⟩ := (h.1 name r).mp hfind
      rw [Option.some.injEq]
      constructor
      · rintro rfl
        exact ⟨hname, outer.length, Nat.lt_succ_self _, hlatest, fun k hk _ _ _ => Nat.lt_succ_iff.mp hk⟩
      · rintro ⟨rfl, level, hlevel, hs, hmax⟩
        have hge := hmax outer.length (Nat.lt_succ_self _) r hlatest hname
        obtain rfl : level = outer.length := by omega
        have hs' := (h.1 s.name s).mpr ⟨rfl, hs⟩
        exact Option.some.inj (hfind.symm.trans hs')
    | none =>
      -- Nothing of this name stands in the innermost scope.
      have hnone (r : Symbol) (hname : r.name = name) : ¬ Latest ops outer.length r := by
        intro hr
        rw [(h.1 name r).mpr ⟨hname, hr⟩] at hfind
        cases hfind
      have hlt {k : Nat} {r : Symbol} (hk : k < outer.length + 1) (hr : Latest ops k r)
          (hname : r.name = name) : k < outer.length := by
        rcases Nat.lt_succ_iff_lt_or_eq.mp hk with hk | rfl
        · exact hk
        · exact absurd hr (hnone r hname)
      rw [ih h.2]
      refine and_congr_right fun hname => ?_
      constructor
      · rintro ⟨level, hlevel, hs, hmax⟩
        exact ⟨level, Nat.lt_succ_of_lt hlevel, hs,
          fun k hk r hr hr' => hmax k (hlt hk hr hr') r hr hr'⟩
      · rintro ⟨level, hlevel, hs, hmax⟩
        exact ⟨level, hlt hlevel hs hname, hs, fun k hk => hmax k (Nat.lt_succ_of_lt hk)⟩

/-- Where a symbol stands, there is a latest one of its name. -/
theorem exists_latest {level i : Nat} {s : Symbol} (h : Stands ops level i s) :
    ∃ r, r.name = s.name ∧ Latest ops level r := by
  by_cases hlater : ∃ j r, Stands ops level j r ∧ r.name = s.name ∧ i < j
  · obtain ⟨j, r, hj, hname, hlt⟩ := hlater
    have := hj.lt_length
    obtain ⟨q, hq, hlatest⟩ := exists_latest hj
    exact ⟨q, hq.trans hname, hlatest⟩
  · refine ⟨s, rfl, i, h, fun j r hj hname => Nat.not_lt.mp fun hlt => ?_⟩
    exact hlater ⟨j, r, hj, hname, hlt⟩
  termination_by ops.length - i

theorem lookup?_performAll_eq_some_iff : (performAll ops empty).lookup? name = some s ↔
    s.name = name ∧ ∃ level, Latest ops level s ∧
      ∀ k i r, Stands ops k i r → r.name = name → k ≤ level := by
  obtain ⟨hlength, hreflect⟩ := reflect_performAll ops
  have hle {k : Nat} (hk : k ≤ depth ops) :
      k < ((performAll ops empty).inner :: (performAll ops empty).outer).length := by
    rw [List.length_cons, hlength]
    omega
  rw [lookup?, hreflect.findSome?_eq_some_iff]
  refine and_congr_right fun _ => ?_
  constructor
  · rintro ⟨level, -, hs, hmax⟩
    refine ⟨level, hs, fun k i r hr hname => ?_⟩
    obtain ⟨q, hq, hlatest⟩ := exists_latest hr
    exact hmax k (hle hr.le_depth) q hlatest (hq.trans hname)
  · rintro ⟨level, hs, hmax⟩
    refine ⟨level, hle hs.le_depth, hs, fun k _ r hr hname => ?_⟩
    obtain ⟨i, hi, -⟩ := hr
    exact hmax k i r hi hname

theorem conflict?_performAll_eq_some_iff : (performAll ops empty).conflict? name = some s ↔
    s.name = name ∧ Latest ops (depth ops) s := by
  obtain ⟨hlength, htells, -⟩ := reflect_performAll ops
  rw [conflict?, ← hlength]
  exact htells name s

/-! ## Closing scopes -/

theorem depth_append_pops (ops : List Operation) (n : Nat) :
    depth (ops ++ List.replicate n .pop) = depth ops - n := by
  induction n with
  | zero => simp
  | succ n ih =>
    rw [List.replicate_succ', ← List.append_assoc, depth_concat, ih, levelAfter, Nat.sub_sub]

/-- However many scopes are closed, what stands in those that stay open goes on standing. -/
theorem latest_append_pops : Latest (ops ++ List.replicate n .pop) k s ↔
    Latest ops k s ∧ k ≤ depth ops - n := by
  induction n with
  | zero =>
    rw [List.replicate_zero, List.append_nil, Nat.sub_zero]
    exact ⟨fun h => ⟨h, h.le_depth⟩, And.left⟩
  | succ n ih =>
    rw [List.replicate_succ', ← List.append_assoc, latest_concat .pop fun _ => nofun, ih,
      depth_concat, depth_append_pops, levelAfter, Nat.sub_sub]
    exact ⟨fun ⟨⟨h, _⟩, hk⟩ => ⟨h, hk⟩, fun ⟨h, hk⟩ => ⟨⟨h, by omega⟩, hk⟩⟩

/-- An operation that does not close one of the lower scopes leaves them as they are. -/
theorem outer_perform {op : Operation} {t : SymbolTable} {above base : List Scope}
    (h : t.outer = above ++ base)
    (hcloses : [op].countP closes ≤ above.length + [op].countP opens) :
    ∃ above', (op.perform t).outer = above' ++ base ∧
      above'.length + [op].countP closes = above.length + [op].countP opens := by
  obtain ⟨inner, outer⟩ := t
  cases op with
  | push => exact ⟨inner :: above, congrArg (inner :: ·) h, rfl⟩
  | pop =>
    cases above with
    | nil => exact absurd hcloses (by decide)
    | cons next above =>
      obtain rfl : outer = next :: (above ++ base) := h
      exact ⟨above, rfl, rfl⟩
  | declare r => exact ⟨above, h, rfl⟩

/-- Operations that close only such of the lower scopes as they have opened leave them as they
are. -/
theorem outer_performAll {t : SymbolTable} {above base : List Scope} (h : t.outer = above ++ base)
    (hbelow : ∀ k, (ops.take k).countP closes ≤ above.length + (ops.take k).countP opens) :
    ∃ above', (performAll ops t).outer = above' ++ base ∧
      above'.length + ops.countP closes = above.length + ops.countP opens := by
  induction ops generalizing t above with
  | nil => exact ⟨above, h, rfl⟩
  | cons op rest ih =>
    have hcons (p : Operation → Bool) (ops : List Operation) :
        (op :: ops).countP p = [op].countP p + ops.countP p := by
      rw [← List.countP_append, List.singleton_append]
    obtain ⟨next, houter, hlength⟩ := outer_perform h (hbelow 1)
    obtain ⟨above', houter', hlength'⟩ := ih houter fun k => by
      have hk := hbelow (k + 1)
      rw [List.take_succ_cons, hcons closes (rest.take k), hcons opens (rest.take k)] at hk
      omega
    refine ⟨above', houter', ?_⟩
    rw [hcons closes rest, hcons opens rest]
    omega

/-- From a push to the matching pop nothing changes for good. -/
theorem performAll_of_balanced (h : Balanced ops) (t : SymbolTable) :
    performAll (.push :: (ops ++ [.pop])) t = t := by
  have hpush : t.push.outer = [] ++ (t.inner :: t.outer) := rfl
  obtain ⟨above, houter, hlength⟩ := outer_performAll hpush fun k => by
    simpa using h.never_below k
  obtain rfl : above = [] := by
    rw [h.matched, List.length_nil, Nat.zero_add] at hlength
    exact List.length_eq_zero_iff.mp (by omega)
  rw [performAll, List.foldl_cons, ← performAll, performAll_concat]
  simp [perform, pop?, houter]

/-- After any operations on a new table, a name means the latest symbol that was declared under it
in the innermost scope that is still open and has one. A declaration replaces the latest one of the
name in the innermost scope. However many scopes are closed, the global one stays with all that was
declared in it. And from a push to the matching pop nothing changes for good. -/
theorem isScopeStack :
    (∀ ops name s, (performAll ops empty).lookup? name = some s ↔ s.name = name ∧
      ∃ level, Latest ops level s ∧ ∀ k i r, Stands ops k i r → r.name = name → k ≤ level) ∧
    (∀ ops name s, (performAll ops empty).conflict? name = some s ↔
      s.name = name ∧ Latest ops (depth ops) s) ∧
    (∀ ops n, depth ops ≤ n →
      let t := performAll (ops ++ List.replicate n .pop) empty
      t.isGlobal = true ∧ t.pop? = none ∧
        ∀ name s, t.lookup? name = some s ↔ s.name = name ∧ Latest ops 0 s) ∧
    ∀ t ops, Balanced ops → performAll (.push :: (ops ++ [.pop])) t = t := by
  refine ⟨fun ops name s => lookup?_performAll_eq_some_iff,
    fun ops name s => conflict?_performAll_eq_some_iff, fun ops n hn => ?_,
    fun t ops h => performAll_of_balanced h t⟩
  have hdepth : depth (ops ++ List.replicate n .pop) = 0 := by
    rw [depth_append_pops]
    omega
  have houter : (performAll (ops ++ List.replicate n .pop) empty).outer = [] :=
    List.length_eq_zero_iff.mp ((reflect_performAll _).1.trans hdepth)
  refine ⟨by rw [isGlobal, houter]; rfl, by rw [pop?, houter], fun name s => ?_⟩
  rw [lookup?_performAll_eq_some_iff]
  refine and_congr_right fun _ => ?_
  constructor
  · rintro ⟨level, hs, -⟩
    have hlevel := hs.le_depth
    rw [hdepth, Nat.le_zero] at hlevel
    rw [← hlevel]
    exact (latest_append_pops.mp hs).1
  · intro hs
    refine ⟨0, latest_append_pops.mpr ⟨hs, Nat.zero_le _⟩, fun k i r hr _ => ?_⟩
    rw [← hdepth]
    exact hr.le_depth

/-- A shadowed global name is found again when more scopes were to be closed than had been opened,
and a scope with another one in it leaves no trace. -/
theorem isScopeStack_of_shadowing :
    let outer : Symbol := .ofVar ⟨⟨"x", ⟨4, 5⟩⟩, .int, none, none, ⟨0, 6⟩⟩
    let inner : Symbol := .ofVar ⟨⟨"x", ⟨14, 15⟩⟩, .vec3, none, none, ⟨9, 16⟩⟩
    let ops : List Operation := [.declare outer, .push, .declare inner]
    let nested : List Operation := [.declare inner, .push, .declare outer, .pop]
    depth ops ≤ 3 ∧
    (performAll (ops ++ List.replicate 3 .pop) empty).lookup? "x" = some outer ∧
    Balanced nested ∧
    performAll (.push :: (nested ++ [.pop])) (empty.declare outer) = empty.declare outer := by
  intro outer inner ops nested
  have hbalanced : Balanced nested := by
    refine ⟨fun k => ?_, rfl⟩
    rcases k with _ | _ | _ | _ | k <;> simp [nested, opens, closes]
  have hlatest : Latest ops 0 outer := by
    refine ⟨0, ⟨rfl, rfl, fun _ _ => Nat.zero_le _⟩, fun j other hj _ => ?_⟩
    have hlt : j < 3 := hj.lt_length
    rcases j with _ | _ | _ | j
    · exact Nat.le_refl 0
    · cases hj.declares
    · cases hj.level_eq
    · omega
  exact ⟨by decide, ((isScopeStack.2.2.1 ops 3 (by decide)).2.2 "x" outer).mpr ⟨rfl, hlatest⟩,
    hbalanced, isScopeStack.2.2.2 _ nested hbalanced⟩

end ShaderLang.SymbolTable
