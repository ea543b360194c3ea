import Mathlib.Data.List.Nodup
import ShaderLang.Ir.Module

/-!
# Single assignment

What it means for a function to compute each temporary value once, and before it is used. The paths
of control are followed through whole blocks, with all instructions that have run on the way.

A function has that form as soon as its blocks and temporary values have a *layout*: each block but
the first has a parent through which every path to it goes, and each temporary value has the block
that computes it. A use is in order if that block is the one of the use or above it
(`Layout.IsOf.isSsa`).
-/

namespace ShaderLang.Ir

namespace Inst

/-- What an instruction reads. -/
def operands : Inst → List Value
  | alloca .. => []
  | load _ _ address => [address]
  | store address value => [address, value]
  | binary _ _ _ left right | compare _ _ left right => [left, right]
  | convert _ _ value => [value]
  | extractLane _ vector _ | shuffle _ vector _ => [vector]
  | insertLane _ vector value _ => [vector, value]
  | elementAddress _ base index => [base, index]
  | call _ _ arguments => arguments

/-- The temporary values that an instruction reads. -/
def uses (inst : Inst) : List Nat :=
  inst.operands.filterMap Value.temp?

end Inst

namespace Terminator

/-- What a terminator reads. -/
def operands : Terminator → List Value
  | condBranch condition .. => [condition]
  | switch value .. => [value]
  | ret value => value.toList
  | branch _ | unreachable => []

/-- The temporary values that a terminator reads. -/
def uses (terminator : Terminator) : List Nat :=
  terminator.operands.filterMap Value.temp?

end Terminator

/-- The temporary values that some code computes, in order. -/
def results (code : List Inst) : List Nat :=
  code.filterMap Inst.result?

@[simp] theorem results_nil : results [] = [] :=
  rfl

@[simp] theorem results_append (c d : List Inst) : results (c ++ d) = results c ++ results d :=
  List.filterMap_append

theorem mem_results {code : List Inst} {t : Nat} :
    t ∈ results code ↔ ∃ inst ∈ code, inst.result? = some t :=
  List.mem_filterMap

namespace Function

/-- Control can come to the beginning of a block after it has run this code. -/
inductive Enters (f : Function) : List Inst → Nat → Prop where
  | entry : Enters f [] 0
  | next {done : List Inst} {id successor : Nat} {block : Block} (h : Enters f done id)
      (hblock : f.blocks[id]? = some block) (hs : successor ∈ block.successors) :
      Enters f (done ++ block.insts.toList) successor

/-- Each temporary value is computed by one instruction, what is used is computed in the same
function, and that on every path before it is used. -/
structure IsSsa (f : Function) : Prop where
  unique : (results f.insts).Nodup
  inst_closed : ∀ inst ∈ f.insts, ∀ t ∈ inst.uses, t ∈ results f.insts
  terminator_closed : ∀ block ∈ f.blocks, ∀ terminator ∈ block.terminator,
    ∀ t ∈ terminator.uses, t ∈ results f.insts
  inst_dominated : ∀ done id block before inst after, f.Enters done id →
    f.blocks[id]? = some block → block.insts.toList = before ++ inst :: after →
      ∀ t ∈ inst.uses, t ∈ results (done ++ before)
  terminator_dominated : ∀ done id block terminator, f.Enters done id →
    f.blocks[id]? = some block → block.terminator = some terminator →
      ∀ t ∈ terminator.uses, t ∈ results (done ++ block.insts.toList)

theorem mem_results_insts {f : Function} {id t : Nat} {block : Block} (hblock : f.blocks[id]? = some block)
    (ht : t ∈ results block.insts.toList) : t ∈ results f.insts := by
  obtain ⟨inst, hinst, hr⟩ := mem_results.mp ht
  have hmem : inst ∈ f.insts := by
    rw [Function.insts, List.mem_flatMap]
    exact ⟨block, Array.mem_toList_iff.mpr (Array.mem_of_getElem? hblock), hinst⟩
  exact mem_results.mpr ⟨inst, hmem, hr⟩

end Function

/-! ## Layouts -/

/-- Where a block comes from: the block that was being filled when it was added, and what it is
named after. -/
structure Origin where
  parent : Option Nat
  stem : String
  deriving DecidableEq

/-- The origin of each block of a function, and the block that computes each temporary value. -/
structure Layout where
  blocks : List Origin
  temps : List Nat

namespace Layout

/-- One block is another one or, through its parents, above it. -/
inductive Above (l : Layout) (a : Nat) : Nat → Prop where
  | refl : Above l a a
  | parent {parent id : Nat} {stem : String} (h : Above l a parent)
      (hid : l.blocks[id]? = some ⟨some parent, stem⟩) : Above l a id

/-- A temporary value is computed in a block, or above it. -/
def Knows (l : Layout) (id t : Nat) : Prop :=
  ∃ home, l.temps[t]? = some home ∧ l.Above home id

/-- A temporary value is computed above a block, before control comes to it. -/
def KnowsBefore (l : Layout) (id t : Nat) : Prop :=
  ∃ home, l.temps[t]? = some home ∧ home ≠ id ∧ l.Above home id

variable {l : Layout}

theorem Above.trans {a b c : Nat} (h : l.Above a b) (h' : l.Above b c) : l.Above a c := by
  induction h' with
  | refl => exact h
  | parent _ hid ih => exact .parent ih hid

/-- Nothing but itself is above a block that has no parent. -/
theorem Above.eq_of_root {a id : Nat} {stem : String} (h : l.Above a id)
    (hid : l.blocks[id]? = some ⟨none, stem⟩) : a = id := by
  cases h with
  | refl => rfl
  | parent _ hid' =>
    rw [hid] at hid'
    cases hid'

/-- A block reads only what is computed above it or, further up, in itself. -/
structure Scopes (l : Layout) (id : Nat) (block : Block) : Prop where
  home : ∀ inst ∈ block.insts, ∀ t, inst.result? = some t → l.temps[t]? = some id
  increasing : (results block.insts.toList).Pairwise (· < ·)
  inst : ∀ before inst after, block.insts.toList = before ++ inst :: after →
    ∀ t ∈ inst.uses, l.KnowsBefore id t ∨ t ∈ results before
  terminator : ∀ terminator, block.terminator = some terminator →
    ∀ t ∈ terminator.uses, l.Knows id t

/-- A layout is one of a function: control enters at a block without parent and goes from one block
to another only if it is below the parent of the other, and each temporary value is computed in the
block that the layout says. -/
structure IsOf (l : Layout) (f : Function) : Prop where
  entry : ∃ stem, l.blocks[0]? = some ⟨none, stem⟩
  scopes : ∀ id block, f.blocks[id]? = some block → l.Scopes id block
  successor : ∀ id block, f.blocks[id]? = some block → ∀ s ∈ block.successors,
    ∃ parent stem, l.blocks[s]? = some ⟨some parent, stem⟩ ∧ l.Above parent id
  computed : ∀ t home, l.temps[t]? = some home →
    ∃ block, f.blocks[home]? = some block ∧ t ∈ results block.insts.toList

namespace IsOf

variable {f : Function} (h : l.IsOf f)

include h

/-- On the way to a block control has run all blocks above it. -/
theorem results_of_above {done : List Inst} {id a : Nat} {block : Block} (hd : f.Enters done id)
    (ha : l.Above a id) (hne : a ≠ id) (hblock : f.blocks[a]? = some block) :
    ∀ t ∈ results block.insts.toList, t ∈ results done := by
  induction hd with
  | entry =>
    obtain ⟨stem, hentry⟩ := h.entry
    exact absurd (ha.eq_of_root hentry) hne
  | @next done id successor last hd hlast hs ih =>
    obtain ⟨parent, stem, hparent, hbelow⟩ := h.successor id last hlast successor hs
    have hup : l.Above a parent := by
      cases ha with
      | refl => exact absurd rfl hne
      | parent hup hid =>
        rw [hparent] at hid
        cases hid
        exact hup
    intro t ht
    rw [results_append, List.mem_append]
    by_cases hlocal : a = id
    · subst hlocal
      rw [hblock] at hlast
      cases hlast
      exact .inr ht
    · exact .inl (ih (hup.trans hbelow) hlocal t ht)

theorem knownBefore {done : List Inst} {id t : Nat} (hd : f.Enters done id)
    (ht : l.KnowsBefore id t) : t ∈ results done := by
  obtain ⟨home, hhome, hne, habove⟩ := ht
  obtain ⟨block, hblock, hmem⟩ := h.computed t home hhome
  exact h.results_of_above hd habove hne hblock t hmem

theorem mem_of_home {t home : Nat} (hhome : l.temps[t]? = some home) : t ∈ results f.insts := by
  obtain ⟨block, hblock, hmem⟩ := h.computed t home hhome
  exact Function.mem_results_insts hblock hmem

/-- Two blocks compute different temporary values. -/
theorem disjoint_results {i j : Nat} {a b : Block} (ha : f.blocks[i]? = some a)
    (hb : f.blocks[j]? = some b) (hne : i ≠ j) :
    ∀ t ∈ results a.insts.toList, t ∉ results b.insts.toList := by
  intro t hta htb
  obtain ⟨inst, hinst, hr⟩ := mem_results.mp hta
  obtain ⟨inst', hinst', hr'⟩ := mem_results.mp htb
  have hhome := (h.scopes i a ha).home inst (Array.mem_toList_iff.mp hinst) t hr
  have hhome' := (h.scopes j b hb).home inst' (Array.mem_toList_iff.mp hinst') t hr'
  rw [hhome] at hhome'
  exact hne (Option.some.inj hhome')

theorem nodup_results : (results f.insts).Nodup := by
  have hflat : results f.insts = f.blocks.toList.flatMap fun b => results b.insts.toList := by
    rw [Function.insts, results, List.filterMap_flatMap]
    rfl
  rw [hflat, List.nodup_flatMap]
  constructor
  · intro block hblock
    obtain ⟨id, hid⟩ := List.getElem?_of_mem hblock
    rw [Array.getElem?_toList] at hid
    exact ((h.scopes id block hid).increasing).imp Nat.ne_of_lt
  · rw [List.pairwise_iff_getElem]
    intro i j hi hj hij t hti htj
    have hbi : f.blocks[i]? = some f.blocks.toList[i] := by
      rw [← Array.getElem?_toList, List.getElem?_eq_getElem hi]
    have hbj : f.blocks[j]? = some f.blocks.toList[j] := by
      rw [← Array.getElem?_toList, List.getElem?_eq_getElem hj]
    exact h.disjoint_results hbi hbj (Nat.ne_of_lt hij) t hti htj

/-- A function that has a layout is in single-assignment form. -/
theorem isSsa : f.IsSsa where
  unique := h.nodup_results
  inst_closed := by
    intro inst hinst t ht
    obtain ⟨block, hblock, hmem⟩ := List.mem_flatMap.mp hinst
    obtain ⟨id, hid⟩ := List.getElem?_of_mem hblock
    rw [Array.getElem?_toList] at hid
    obtain ⟨before, after, hsplit⟩ := List.append_of_mem hmem
    rcases (h.scopes id block hid).inst before inst after hsplit t ht with ⟨home, hhome, -⟩ | hr
    · exact h.mem_of_home hhome
    · apply Function.mem_results_insts hid
      rw [hsplit, results_append]
      exact List.mem_append_left _ hr
  terminator_closed := by
    intro block hblock terminator hterm t ht
    obtain ⟨id, hid⟩ := Array.getElem?_of_mem hblock
    obtain ⟨home, hhome, -⟩ := (h.scopes id block hid).terminator terminator hterm t ht
    exact h.mem_of_home hhome
  inst_dominated := by
    intro done id block before inst after hd hblock hsplit t ht
    rw [results_append, List.mem_append]
    rcases (h.scopes id block hblock).inst before inst after hsplit t ht with hk | hr
    · exact .inl (h.knownBefore hd hk)
    · exact .inr hr
  terminator_dominated := by
    intro done id block terminator hd hblock hterm t ht
    obtain ⟨home, hhome, habove⟩ := (h.scopes id block hblock).terminator terminator hterm t ht
    rw [results_append, List.mem_append]
    by_cases hlocal : home = id
    · subst hlocal
      obtain ⟨block', hblock', hmem⟩ := h.computed t home hhome
      rw [hblock] at hblock'
      cases hblock'
      exact .inr hmem
    · exact .inl (h.knownBefore hd ⟨home, hhome, hlocal, habove⟩)

end IsOf

end Layout

end ShaderLang.Ir
