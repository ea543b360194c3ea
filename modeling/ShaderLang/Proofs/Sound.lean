import ShaderLang.Proofs.Flow
import ShaderLang.Proofs.Graph

/-!
# Sound builders

The invariant of a function under construction: it has a layout (`Builder.Sound`). Each operation of
the builder keeps it, under a layout that says more, as long as what it adds reads only what is
known at its block and leads only where the layout allows.
-/

namespace ShaderLang.Ir

namespace Layout

/-- A layout that says at least as much. -/
structure Extends (l l' : Layout) : Prop where
  blocks : l.blocks <+: l'.blocks
  temps : l.temps <+: l'.temps

/-- A temporary value more. -/
def addTemp (l : Layout) (home : Nat) : Layout :=
  { l with temps := l.temps ++ [home] }

/-- A block more. -/
def addBlock (l : Layout) (parent : Option Nat) (stem : String) : Layout :=
  { l with blocks := l.blocks ++ [⟨parent, stem⟩] }

theorem getElem?_of_isPrefix {α : Type} {xs ys : List α} (h : xs <+: ys) {i : Nat} {a : α}
    (ha : xs[i]? = some a) : ys[i]? = some a := by
  obtain ⟨rest, rfl⟩ := h
  rw [List.getElem?_append_left (List.getElem?_eq_some_iff.mp ha).1]
  exact ha

variable {l l' l'' : Layout}

namespace Extends

theorem refl (l : Layout) : l.Extends l :=
  ⟨List.prefix_rfl, List.prefix_rfl⟩

theorem trans (h : l.Extends l') (h' : l'.Extends l'') : l.Extends l'' :=
  ⟨h.blocks.trans h'.blocks, h.temps.trans h'.temps⟩

theorem addTemp (l : Layout) (home : Nat) : l.Extends (l.addTemp home) :=
  ⟨List.prefix_rfl, List.prefix_append _ _⟩

theorem addBlock (l : Layout) (parent : Option Nat) (stem : String) :
    l.Extends (l.addBlock parent stem) :=
  ⟨List.prefix_append _ _, List.prefix_rfl⟩

theorem block (h : l.Extends l') {id : Nat} {origin : Origin}
    (ho : l.blocks[id]? = some origin) : l'.blocks[id]? = some origin :=
  getElem?_of_isPrefix h.blocks ho

theorem temp (h : l.Extends l') {t home : Nat} (ht : l.temps[t]? = some home) :
    l'.temps[t]? = some home :=
  getElem?_of_isPrefix h.temps ht

theorem above (h : l.Extends l') {a id : Nat} (ha : l.Above a id) : l'.Above a id := by
  induction ha with
  | refl => exact .refl
  | parent _ hid ih => exact .parent ih (h.block hid)

theorem knows (h : l.Extends l') {id t : Nat} (hk : l.Knows id t) : l'.Knows id t := by
  obtain ⟨home, hhome, habove⟩ := hk
  exact ⟨home, h.temp hhome, h.above habove⟩

theorem knowsBefore (h : l.Extends l') {id t : Nat} (hk : l.KnowsBefore id t) :
    l'.KnowsBefore id t := by
  obtain ⟨home, hhome, hne, habove⟩ := hk
  exact ⟨home, h.temp hhome, hne, h.above habove⟩

theorem leads (h : l.Extends l') {id target : Nat} (hl : l.Leads id target) :
    l'.Leads id target := by
  obtain ⟨parent, stem, horigin, hstem, habove⟩ := hl
  exact ⟨parent, stem, h.block horigin, hstem, h.above habove⟩

theorem name? (h : l.Extends l') {id : Nat} {name : String} (hn : l.name? id = some name) :
    l'.name? id = some name := by
  obtain ⟨origin, horigin, rfl⟩ := name?_eq_some hn
  have hlt := (List.getElem?_eq_some_iff.mp horigin).1
  have htake : l'.blocks.take id = l.blocks.take id := by
    obtain ⟨rest, hrest⟩ := h.blocks
    rw [← hrest, List.take_append_of_le_length (Nat.le_of_lt hlt)]
  rw [Layout.name?, h.block horigin, htake]
  rfl

theorem scopes (h : l.Extends l') {id : Nat} {block : Block} (hs : l.Scopes id block) :
    l'.Scopes id block where
  home inst hi t ht := h.temp (hs.home inst hi t ht)
  increasing := hs.increasing
  inst before inst after hsplit t ht := (hs.inst before inst after hsplit t ht).imp_left h.knowsBefore
  terminator terminator hterm t ht := h.knows (hs.terminator terminator hterm t ht)

end Extends

/-- What a layout says of a block. Where `strict` holds, the labels of a block are distinct. -/
structure Describes (strict : Prop) (l : Layout) (id : Nat) (block : Block) : Prop where
  scopes : l.Scopes id block
  position : block.id = id
  name : l.name? id = some block.name
  leads : ∀ terminator, block.terminator = some terminator →
    ∀ s ∈ terminator.successors, l.Leads id s
  labels : strict → ∀ terminator, block.terminator = some terminator → terminator.labels.Nodup

namespace Describes

variable {strict : Prop} {id : Nat} {block : Block}

theorem mono (h : l.Describes strict id block) (hl : l.Extends l') :
    l'.Describes strict id block where
  scopes := hl.scopes h.scopes
  position := h.position
  name := hl.name? h.name
  leads terminator hterm s hs := hl.leads (h.leads terminator hterm s hs)
  labels := h.labels

theorem empty {name : String} (hname : l.name? id = some name) :
    l.Describes strict id (.empty id name) where
  scopes :=
    { home := fun inst hi => absurd hi (by simp)
      increasing := by simp
      inst := fun before inst after hsplit => absurd hsplit (by simp)
      terminator := fun terminator hterm => absurd hterm (by simp) }
  position := rfl
  name := hname
  leads terminator hterm := absurd hterm (by simp)
  labels _ terminator hterm := absurd hterm (by simp)

/-- An instruction more, which reads what is known and computes what comes next. -/
theorem append (h : l.Describes strict id block) {inst : Inst}
    (hresult : ∀ t, inst.result? = some t → l.temps[t]? = some id ∧
      ∀ r ∈ results block.insts.toList, r < t)
    (huses : ∀ t ∈ inst.uses, l.KnowsBefore id t ∨ t ∈ results block.insts.toList) :
    l.Describes strict id (block.append [inst]) where
  scopes :=
    { home := by
        intro other hother t ht
        rw [Block.insts_append, Array.mem_append] at hother
        rcases hother with hold | hnew
        · exact h.scopes.home other hold t ht
        · have heq : other = inst := by simpa using hnew
          rw [heq] at ht
          exact (hresult t ht).1
      increasing := by
        have hlist : (block.append [inst]).insts.toList = block.insts.toList ++ [inst] := by simp
        rw [hlist, results_append, List.pairwise_append]
        refine ⟨h.scopes.increasing, ?_, ?_⟩
        · cases hr : inst.result? <;> simp [results, hr]
        · intro r hr t ht
          obtain ⟨other, hother, hrt⟩ := mem_results.mp ht
          rw [List.mem_singleton] at hother
          rw [hother] at hrt
          exact (hresult t hrt).2 r hr
      inst := by
        intro before other after hsplit t ht
        have hlist : (block.append [inst]).insts.toList = block.insts.toList ++ [inst] := by simp
        rw [hlist] at hsplit
        rcases List.eq_nil_or_concat after with rfl | ⟨after', last, rfl⟩
        · obtain ⟨hbefore, hother⟩ := List.append_inj' hsplit rfl
          cases hother
          rw [← hbefore]
          exact huses t ht
        · have hsplit' : block.insts.toList ++ [inst] = (before ++ other :: after') ++ [last] := by
            simpa using hsplit
          exact h.scopes.inst before other after' (List.append_inj' hsplit' rfl).1 t ht
      terminator := h.scopes.terminator }
  position := h.position
  name := h.name
  leads := h.leads
  labels := h.labels

theorem close (h : l.Describes strict id block) {terminator : Terminator}
    (huses : ∀ t ∈ terminator.uses, l.Knows id t)
    (hleads : ∀ s ∈ terminator.successors, l.Leads id s)
    (hlabels : strict → terminator.labels.Nodup) :
    l.Describes strict id (block.close terminator) where
  scopes :=
    { home := h.scopes.home
      increasing := h.scopes.increasing
      inst := h.scopes.inst
      terminator := by
        intro other hother
        rw [Block.terminator_close] at hother
        cases hother
        exact huses }
  position := h.position
  name := h.name
  leads := by
    intro other hother
    rw [Block.terminator_close] at hother
    cases hother
    exact hleads
  labels := by
    intro hstrict other hother
    rw [Block.terminator_close] at hother
    cases hother
    exact hlabels hstrict

end Describes

end Layout

/-- The open function has a layout, of which each block is one that is there. -/
structure Builder.Sound (strict : Prop) (l : Layout) (b : Builder) : Prop where
  temps : l.temps.length = b.nextTemp
  size : l.blocks.length = b.blockCount
  stems : b.stems = (l.blocks.map Origin.stem).reverse
  known : ∀ origin ∈ l.blocks, origin.stem ∈ blockStems
  block : ∀ id block, b.block? id = some block → l.Describes strict id block
  computed : ∀ t home, l.temps[t]? = some home →
    ∃ block, b.block? home = some block ∧ t ∈ results block.insts.toList

namespace Builder

@[simp] theorem stems_modifyBlock {b : Builder} (id : Nat) (f : Block → Block) :
    (b.modifyBlock id f).stems = b.stems :=
  rfl

@[simp] theorem stems_append {b : Builder} (code : List Inst) (next : Nat) :
    (b.append code next).stems = b.stems := by
  unfold append
  split <;> rfl

@[simp] theorem stems_close {b : Builder} (t : Terminator) : (b.close t).stems = b.stems := by
  unfold close
  split <;> rfl

namespace Sound

variable {strict : Prop} {l : Layout} {b b' : Builder} (h : b.Sound strict l)

include h

theorem temp_lt {t home : Nat} (ht : l.temps[t]? = some home) : t < b.nextTemp := by
  rw [← h.temps]
  exact (List.getElem?_eq_some_iff.mp ht).1

theorem result_lt {id t : Nat} {block : Block} (hblock : b.block? id = some block)
    (ht : t ∈ results block.insts.toList) : t < b.nextTemp := by
  obtain ⟨inst, hinst, hr⟩ := mem_results.mp ht
  exact h.temp_lt ((h.block id block hblock).scopes.home inst (Array.mem_toList_iff.mp hinst) t hr)

/-- What is known in a block is known before it or computed in it already. -/
theorem knows_cases {id t : Nat} {block : Block} (hblock : b.block? id = some block)
    (ht : l.Knows id t) : l.KnowsBefore id t ∨ t ∈ results block.insts.toList := by
  obtain ⟨home, hhome, habove⟩ := ht
  by_cases heq : home = id
  · subst heq
    obtain ⟨block', hblock', hmem⟩ := h.computed t home hhome
    rw [hblock] at hblock'
    cases hblock'
    exact .inr hmem
  · exact .inl ⟨home, hhome, heq, habove⟩

/-- One block gets an instruction that computes the next temporary value. -/
theorem addInst {id : Nat} (hid : id < b.blockCount) {inst : Inst}
    (hr : inst.result? = some b.nextTemp) (huses : ∀ t ∈ inst.uses, l.Knows id t)
    (hblock : ∀ j, b'.block? j =
      if id = j then (b.block? j).map (·.append [inst]) else b.block? j)
    (hnext : b'.nextTemp = b.nextTemp + 1) (hcount : b'.blockCount = b.blockCount)
    (hstems : b'.stems = b.stems) : b'.Sound strict (l.addTemp id) where
  temps := by rw [hnext, ← h.temps, Layout.addTemp, List.length_append, List.length_singleton]
  size := h.size.trans hcount.symm
  stems := hstems.trans h.stems
  known := h.known
  block j block hj := by
    have hmore := Layout.Extends.addTemp l id
    rw [hblock] at hj
    split at hj
    · next heq =>
      subst heq
      obtain ⟨old, hold, rfl⟩ := Option.map_eq_some_iff.mp hj
      refine ((h.block id old hold).mono hmore).append ?_ ?_
      · intro t ht
        rw [hr] at ht
        cases ht
        refine ⟨?_, fun r hr => h.result_lt hold hr⟩
        rw [Layout.addTemp, ← h.temps, List.getElem?_concat_length]
      · intro t ht
        exact (h.knows_cases hold (huses t ht)).imp_left hmore.knowsBefore
    · exact (h.block j block hj).mono hmore
  computed t home ht := by
    rw [Layout.addTemp, List.getElem?_append] at ht
    split at ht
    · obtain ⟨block, hat, hmem⟩ := h.computed t home ht
      by_cases heq : id = home
      · exact ⟨block.append [inst], by rw [hblock, if_pos heq, hat]; rfl, by simp [hmem]⟩
      · exact ⟨block, by rw [hblock, if_neg heq, hat], hmem⟩
    · next hge =>
      rw [h.temps] at hge ht
      have hzero : t - b.nextTemp = 0 := by
        have := (List.getElem?_eq_some_iff.mp ht).1
        simpa using this
      rw [hzero] at ht
      cases ht
      have ht : t = b.nextTemp := by omega
      obtain ⟨block, hat⟩ := Option.isSome_iff_exists.mp (block?_isSome_iff.mpr hid)
      refine ⟨block.append [inst], by rw [hblock, if_pos rfl, hat]; rfl, ?_⟩
      simp [results, hr, ht]

theorem appendValue {id : Nat} (hins : b.insertion = some id) (hid : id < b.blockCount)
    {inst : Inst} (hr : inst.result? = some b.nextTemp) (huses : ∀ t ∈ inst.uses, l.Knows id t) :
    (b.append [inst] (b.nextTemp + 1)).Sound strict (l.addTemp id) := by
  apply h.addInst hid hr huses
  · intro j
    rw [block?_append, hins]
    simp only [Option.some.injEq]
  · simp
  · simp
  · simp

theorem allocIn {id : Nat} (hid : id < b.blockCount) (ty : Ty) (name : String) :
    (b.allocIn id ty name).Sound strict (l.addTemp id) := by
  have hr : (Inst.alloca b.nextTemp ty name).result? = some b.nextTemp := rfl
  apply h.addInst hid hr
  · intro t ht
    exact absurd ht (by simp [Inst.uses, Inst.operands])
  · exact block?_allocIn id ty name
  · simp
  · simp
  · rfl

theorem append {id : Nat} (hins : b.insertion = some id) {inst : Inst}
    (hr : inst.result? = none) (huses : ∀ t ∈ inst.uses, l.Knows id t) :
    (b.append [inst] b.nextTemp).Sound strict l where
  temps := by simpa using h.temps
  size := by simpa using h.size
  stems := by simpa using h.stems
  known := h.known
  block j block hj := by
    rw [block?_append, hins] at hj
    split at hj
    · next heq =>
      cases heq
      obtain ⟨old, hold, rfl⟩ := Option.map_eq_some_iff.mp hj
      apply (h.block id old hold).append
      · intro t ht
        rw [hr] at ht
        cases ht
      · intro t ht
        exact h.knows_cases hold (huses t ht)
    · exact h.block j block hj
  computed t home ht := by
    obtain ⟨block, hat, hmem⟩ := h.computed t home ht
    rw [block?_append]
    split
    · exact ⟨block.append [inst], by rw [hat]; rfl, by simp [hmem]⟩
    · exact ⟨block, hat, hmem⟩

theorem close {id : Nat} (hins : b.insertion = some id) {terminator : Terminator}
    (huses : ∀ t ∈ terminator.uses, l.Knows id t)
    (hleads : ∀ s ∈ terminator.successors, l.Leads id s)
    (hlabels : strict → terminator.labels.Nodup) : (b.close terminator).Sound strict l where
  temps := by simpa using h.temps
  size := by simpa using h.size
  stems := by simpa using h.stems
  known := h.known
  block j block hj := by
    rw [block?_close, hins] at hj
    split at hj
    · next heq =>
      cases heq
      obtain ⟨old, hold, rfl⟩ := Option.map_eq_some_iff.mp hj
      exact (h.block id old hold).close huses hleads hlabels
    · exact h.block j block hj
  computed t home ht := by
    obtain ⟨block, hat, hmem⟩ := h.computed t home ht
    rw [block?_close]
    split
    · exact ⟨block.close terminator, by rw [hat]; rfl, hmem⟩
    · exact ⟨block, hat, hmem⟩

theorem addBlock (hopen : b.openFn.isSome) (parent : Option Nat) {stem : String}
    (hstem : stem ∈ blockStems) : (b.addBlock stem).Sound strict (l.addBlock parent stem) where
  temps := h.temps
  size := by
    rw [blockCount_addBlock stem hopen, ← h.size, Layout.addBlock, List.length_append,
      List.length_singleton]
  stems := by
    change stem :: b.stems = _
    rw [h.stems, Layout.addBlock]
    simp
  known := by
    intro origin ho
    rcases List.mem_append.mp ho with ho | ho
    · exact h.known origin ho
    · rw [List.mem_singleton.mp ho]
      exact hstem
  block j block hj := by
    have hmore := Layout.Extends.addBlock l parent stem
    rw [block?_addBlock stem hopen] at hj
    split at hj
    · next heq =>
      cases hj
      apply Layout.Describes.empty
      rw [heq, ← h.size, Layout.name?, Layout.addBlock, List.getElem?_concat_length,
        List.take_left, freshName, h.stems, List.count_reverse]
      rfl
    · exact (h.block j block hj).mono hmore
  computed t home ht := by
    obtain ⟨block, hat, hmem⟩ := h.computed t home ht
    refine ⟨block, ?_, hmem⟩
    rw [block?_addBlock stem hopen, if_neg (Nat.ne_of_lt (lt_blockCount hat)), hat]

theorem moveTo (id : Nat) : (b.moveTo id).Sound strict l :=
  ⟨h.temps, h.size, h.stems, h.known, h.block, h.computed⟩

omit h in
/-- At its beginning a function has one block and no temporary value. -/
theorem begin (name : String) (params : List (String × Ty)) (returnTy : Ty) :
    ((b.begin name params returnTy).addBlock "entry").Sound strict ⟨[⟨none, "entry"⟩], []⟩ := by
  have hbegun : (b.begin name params returnTy).Sound strict ⟨[], []⟩ :=
    ⟨rfl, rfl, rfl, fun origin ho => absurd ho List.not_mem_nil,
      fun id block hblock => by simp [block?, Builder.begin] at hblock,
      fun t home ht => by simp at ht⟩
  exact hbegun.addBlock rfl none (by decide)

/-- A function that is sound to the end has a layout. -/
theorem isOf {f : Function} (hf : b.openFn = some f)
    (hentry : l.blocks[0]? = some ⟨none, "entry"⟩) : l.IsOf f where
  entry := ⟨"entry", hentry⟩
  scopes id block hid := (h.block id block (by rw [block?, hf]; exact hid)).scopes
  successor id block hid s hs := by
    have hdesc := h.block id block (by rw [block?, hf]; exact hid)
    cases hterm : block.terminator with
    | none => simp [Block.successors, hterm] at hs
    | some terminator =>
      rw [Block.successors, hterm] at hs
      obtain ⟨parent, stem, horigin, -, habove⟩ := hdesc.leads terminator hterm s hs
      exact ⟨parent, stem, horigin, habove⟩
  computed t home ht := by
    obtain ⟨block, hat, hmem⟩ := h.computed t home ht
    rw [block?, hf] at hat
    exact ⟨block, hat, hmem⟩

theorem isOfGraph {f : Function} (hf : b.openFn = some f)
    (hentry : l.blocks[0]? = some ⟨none, "entry"⟩) : l.IsOfGraph f where
  entry := hentry
  stems := h.known
  size := by rw [h.size, blockCount, hf]; rfl
  ids id block hid := (h.block id block (by rw [block?, hf]; exact hid)).position
  name id block hid := (h.block id block (by rw [block?, hf]; exact hid)).name
  leads id block hid s hs := by
    have hdesc := h.block id block (by rw [block?, hf]; exact hid)
    cases hterm : block.terminator with
    | none => simp [Block.successors, hterm] at hs
    | some terminator =>
      rw [Block.successors, hterm] at hs
      exact hdesc.leads terminator hterm s hs

theorem hasDistinctLabels {f : Function} (hf : b.openFn = some f) (hstrict : strict) :
    f.HasDistinctLabels := by
  intro block hblock terminator hterm
  obtain ⟨id, hid⟩ := Array.getElem?_of_mem hblock
  exact (h.block id block (by rw [block?, hf]; exact hid)).labels hstrict terminator hterm

end Sound

end Builder

end ShaderLang.Ir
