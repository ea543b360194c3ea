import ShaderLang.Proofs.Ssa

/-!
# Control-flow graphs

What it means for the blocks of a function to make a graph: control never comes back to the first
block, it goes to blocks of the function only, and no two blocks have the same name, as the text
speaks of blocks by their names alone.

Names are a stem and a number, and the number of a block is how many blocks before it have the same
stem (`Layout.name?`). They differ because no stem ends in a digit (`numberedName_inj`).
-/

namespace ShaderLang.Ir

/-! ## Names -/

/-- The name of a block that comes after some others of the same stem. -/
def numberedName (stem : String) (before : Nat) : String :=
  if before = 0 then stem else stem ++ "." ++ toString before

/-- What the blocks are named after that control is sent to. -/
def branchStems : List String :=
  ["if.then", "if.else", "if.footer", "while.head", "while.body", "while.footer", "for.head",
    "for.body", "for.step", "for.footer", "switch.case", "switch.default", "switch.footer",
    "cond.then", "cond.else", "cond.end"]

/-- What blocks are named after. -/
def blockStems : List String :=
  "entry" :: "dead" :: branchStems

/-- A text with a last character, which is no digit. -/
def EndsPlain (stem : String) : Prop :=
  stem.toList.getLast?.any (!·.isDigit) = true

theorem endsPlain_of_mem {stem : String} (h : stem ∈ blockStems) : EndsPlain stem := by
  have hall : blockStems.all (fun stem => stem.toList.getLast?.any (!·.isDigit)) = true := by
    decide +kernel
  exact List.all_eq_true.mp hall stem h

theorem toList_numberedName (stem : String) (before : Nat) :
    (numberedName stem before).toList =
      if before = 0 then stem.toList else stem.toList ++ '.' :: Nat.toDigits 10 before := by
  unfold numberedName
  split
  · rfl
  · simp

/-- A number behind a stem can be cut off again: it is the digits at the end. -/
theorem takeWhile_numberedName {n : Nat} (hn : 0 < n) (stem : String) :
    (numberedName stem n).toList.reverse.takeWhile Char.isDigit = (Nat.toDigits 10 n).reverse := by
  rw [toList_numberedName, if_neg (Nat.ne_of_gt hn), List.reverse_append, List.reverse_cons,
    List.append_assoc, List.takeWhile_append_of_pos]
  · simp
  · intro c hc
    exact Nat.isDigit_of_mem_toDigits (by decide) (by decide) (List.mem_reverse.mp hc)

/-- A name with a number comes from one stem only. -/
theorem numberedName_inj_of_pos {stem stem' : String} {n n' : Nat} (hn : 0 < n) (hn' : 0 < n')
    (h : numberedName stem n = numberedName stem' n') : stem = stem' ∧ n = n' := by
  have hdigits := congrArg (fun s : String => s.toList.reverse.takeWhile Char.isDigit) h
  simp only [takeWhile_numberedName hn, takeWhile_numberedName hn', List.reverse_inj] at hdigits
  obtain rfl : n = n' := by simpa using congrArg (Nat.ofDigitChars 10 · 0) hdigits
  refine ⟨?_, rfl⟩
  have hlist := congrArg String.toList h
  rw [toList_numberedName, toList_numberedName, if_neg (Nat.ne_of_gt hn),
    if_neg (Nat.ne_of_gt hn)] at hlist
  exact String.toList_inj.mp (List.append_cancel_right hlist)

/-- A name with a number ends in a digit. -/
theorem not_endsPlain_numberedName {n : Nat} (hn : 0 < n) (stem : String) :
    ¬ EndsPlain (numberedName stem n) := by
  intro h
  have hdigits := takeWhile_numberedName hn stem
  rw [EndsPlain, ← List.head?_reverse] at h
  cases hlast : (numberedName stem n).toList.reverse with
  | nil =>
    rw [hlast] at h
    cases h
  | cons c rest =>
    rw [hlast] at h hdigits
    have hc : c.isDigit = false := by simpa using h
    rw [List.takeWhile_cons_of_neg (by simp [hc])] at hdigits
    exact Nat.toDigits_ne_nil (List.reverse_eq_nil_iff.mp hdigits.symm)

theorem numberedName_inj {stem stem' : String} {n n' : Nat} (h : EndsPlain stem)
    (h' : EndsPlain stem') (heq : numberedName stem n = numberedName stem' n') :
    stem = stem' ∧ n = n' := by
  rcases Nat.eq_zero_or_pos n with rfl | hn
  · rcases Nat.eq_zero_or_pos n' with rfl | hn'
    · exact ⟨heq, rfl⟩
    · exact absurd (heq ▸ h) (not_endsPlain_numberedName hn' stem')
  · rcases Nat.eq_zero_or_pos n' with rfl | hn'
    · exact absurd (heq ▸ h') (not_endsPlain_numberedName hn stem)
    · exact numberedName_inj_of_pos hn hn' heq

/-! ## Graphs -/

namespace Terminator

/-- The labels that a terminator tells apart. -/
def labels : Terminator → List Int64
  | switch _ _ cases => cases.map Prod.fst
  | _ => []

end Terminator

namespace Function

/-- The blocks of a function make a graph. Those named after `dead` hold what stands behind a jump,
and control comes to none of them. -/
structure IsGraph (f : Function) : Prop where
  entry : ∃ block, f.entry? = some block ∧ block.name = "entry"
  entry_source : ∀ entry, f.entry? = some entry → ∀ block ∈ f.blocks, entry.id ∉ block.successors
  closed : ∀ block ∈ f.blocks, ∀ s ∈ block.successors, ∃ target ∈ f.blocks, target.id = s
  ids : ∀ (id : Nat) (block : Block), f.blocks[id]? = some block → block.id = id
  names : (f.blocks.toList.map Block.name).Nodup
  dead : ∀ block ∈ f.blocks, ∀ dead ∈ f.blocks, ∀ n, dead.name = numberedName "dead" n →
    dead.id ∉ block.successors

/-- No value has two places to go to. -/
def HasDistinctLabels (f : Function) : Prop :=
  ∀ block ∈ f.blocks, ∀ terminator ∈ block.terminator, terminator.labels.Nodup

end Function

namespace Layout

/-- The name of a block: its stem, with the number of blocks before it that have the same stem. -/
def name? (l : Layout) (id : Nat) : Option String :=
  l.blocks[id]?.map fun origin =>
    numberedName origin.stem (((l.blocks.take id).map Origin.stem).count origin.stem)

/-- Control may go from one block to another: the other one is there for it, and control comes to
its parent first. -/
def Leads (l : Layout) (id target : Nat) : Prop :=
  ∃ parent stem, l.blocks[target]? = some ⟨some parent, stem⟩ ∧ stem ∈ branchStems ∧
    l.Above parent id

variable {l : Layout}

theorem name?_eq_some {id : Nat} {name : String} (h : l.name? id = some name) :
    ∃ origin, l.blocks[id]? = some origin ∧
      name = numberedName origin.stem (((l.blocks.take id).map Origin.stem).count origin.stem) := by
  obtain ⟨origin, horigin, hname⟩ := Option.map_eq_some_iff.mp h
  exact ⟨origin, horigin, hname.symm⟩

/-- The later one of two blocks of the same stem has the greater number. -/
theorem count_lt {i j : Nat} {origin : Origin} (hi : l.blocks[i]? = some origin) (hij : i < j) :
    ((l.blocks.take i).map Origin.stem).count origin.stem <
      ((l.blocks.take j).map Origin.stem).count origin.stem := by
  have hprefix : (l.blocks.take i).map Origin.stem ++ [origin.stem] <+:
      (l.blocks.take j).map Origin.stem := by
    have htake : l.blocks.take i ++ [origin] = l.blocks.take (i + 1) := by
      rw [List.take_add_one, hi]
      rfl
    have hle : l.blocks.take (i + 1) <+: l.blocks.take j := List.take_prefix_take_left hij
    rw [← htake] at hle
    simpa using hle.map Origin.stem
  have hcount := hprefix.sublist.count_le origin.stem
  rw [List.count_append] at hcount
  simp only [List.count_singleton_self] at hcount
  omega

theorem name?_inj (hstems : ∀ origin ∈ l.blocks, origin.stem ∈ blockStems) {i j : Nat}
    {name : String} (hi : l.name? i = some name) (hj : l.name? j = some name) : i = j := by
  obtain ⟨a, ha, hna⟩ := name?_eq_some hi
  obtain ⟨b, hb, hnb⟩ := name?_eq_some hj
  have hpa := endsPlain_of_mem (hstems a (List.mem_of_getElem? ha))
  have hpb := endsPlain_of_mem (hstems b (List.mem_of_getElem? hb))
  obtain ⟨hstem, hcount⟩ := numberedName_inj hpa hpb (hna.symm.trans hnb)
  rcases Nat.lt_trichotomy i j with hlt | heq | hgt
  · have := count_lt ha hlt
    rw [hstem] at this hcount
    omega
  · exact heq
  · have := count_lt hb hgt
    rw [hstem] at hcount
    omega

/-- A layout is one of a graph: the names are those of the layout, and control goes only where the
layout allows. -/
structure IsOfGraph (l : Layout) (f : Function) : Prop where
  entry : l.blocks[0]? = some ⟨none, "entry"⟩
  stems : ∀ origin ∈ l.blocks, origin.stem ∈ blockStems
  size : l.blocks.length = f.blocks.size
  ids : ∀ (id : Nat) (block : Block), f.blocks[id]? = some block → block.id = id
  name : ∀ id block, f.blocks[id]? = some block → l.name? id = some block.name
  leads : ∀ id block, f.blocks[id]? = some block → ∀ s ∈ block.successors, l.Leads id s

namespace IsOfGraph

variable {f : Function} (h : l.IsOfGraph f)

include h

theorem exists_target {block : Block} (hblock : block ∈ f.blocks) {s : Nat}
    (hs : s ∈ block.successors) : ∃ target origin, f.blocks[s]? = some target ∧ target.id = s ∧
      l.blocks[s]? = some origin ∧ origin.stem ∈ branchStems := by
  obtain ⟨id, hid⟩ := Array.getElem?_of_mem hblock
  obtain ⟨parent, stem, horigin, hstem, -⟩ := h.leads id block hid s hs
  have hlt : s < f.blocks.size := by
    rw [← h.size]
    exact (List.getElem?_eq_some_iff.mp horigin).1
  have htarget : f.blocks[s]? = some f.blocks[s] := Array.getElem?_eq_getElem hlt
  exact ⟨f.blocks[s], _, htarget, h.ids s _ htarget, horigin, hstem⟩

/-- Control is sent to no block that is named after something else. -/
theorem not_mem_successors {block target : Block} (hblock : block ∈ f.blocks)
    (htarget : target ∈ f.blocks) {stem : String} {n : Nat} (hstem : stem ∈ blockStems)
    (hname : target.name = numberedName stem n) (hnot : stem ∉ branchStems) :
    target.id ∉ block.successors := by
  intro hs
  obtain ⟨id, hid⟩ := Array.getElem?_of_mem htarget
  obtain ⟨target', origin, -, -, horigin, hbranch⟩ := h.exists_target hblock hs
  rw [h.ids id target hid] at horigin
  obtain ⟨origin', horigin', hname'⟩ := name?_eq_some (h.name id target hid)
  rw [horigin] at horigin'
  cases horigin'
  have hplain := endsPlain_of_mem hstem
  have hplain' := endsPlain_of_mem (h.stems origin (List.mem_of_getElem? horigin))
  obtain ⟨heq, -⟩ := numberedName_inj hplain hplain' (hname.symm.trans hname')
  rw [heq] at hnot
  exact hnot hbranch

theorem exists_entry : ∃ block, f.entry? = some block ∧ block.name = numberedName "entry" 0 := by
  have hlt : 0 < f.blocks.size := by
    rw [← h.size]
    exact (List.getElem?_eq_some_iff.mp h.entry).1
  have hentry : f.blocks[0]? = some f.blocks[0] := Array.getElem?_eq_getElem hlt
  obtain ⟨origin, horigin, hname⟩ := name?_eq_some (h.name 0 _ hentry)
  rw [h.entry] at horigin
  cases horigin
  exact ⟨f.blocks[0], hentry, hname⟩

theorem named : ∀ block ∈ f.blocks, ∃ stem ∈ blockStems, ∃ n, block.name = numberedName stem n := by
  intro block hblock
  obtain ⟨id, hid⟩ := Array.getElem?_of_mem hblock
  obtain ⟨origin, horigin, hname⟩ := name?_eq_some (h.name id block hid)
  exact ⟨origin.stem, h.stems origin (List.mem_of_getElem? horigin), _, hname⟩

theorem nodup_names : (f.blocks.toList.map Block.name).Nodup := by
  rw [List.Nodup, List.pairwise_map, List.pairwise_iff_getElem]
  intro i j hi hj hij heq
  have hbi : f.blocks[i]? = some f.blocks.toList[i] := by
    rw [← Array.getElem?_toList, List.getElem?_eq_getElem hi]
  have hbj : f.blocks[j]? = some f.blocks.toList[j] := by
    rw [← Array.getElem?_toList, List.getElem?_eq_getElem hj]
  have hni := h.name i _ hbi
  rw [heq] at hni
  have := name?_inj h.stems hni (h.name j _ hbj)
  omega

/-- A function that has a layout of a graph is one. -/
theorem isGraph : f.IsGraph where
  entry := h.exists_entry
  entry_source := by
    intro entry hentry block hblock
    obtain ⟨entry', hentry', hname⟩ := h.exists_entry
    rw [hentry] at hentry'
    cases hentry'
    exact h.not_mem_successors hblock (Array.mem_of_getElem? hentry) (by decide) hname (by decide)
  closed := by
    intro block hblock s hs
    obtain ⟨target, origin, htarget, hid, -⟩ := h.exists_target hblock hs
    exact ⟨target, Array.mem_of_getElem? htarget, hid⟩
  ids := h.ids
  names := h.nodup_names
  dead := by
    intro block hblock dead hdead n hname
    exact h.not_mem_successors hblock hdead (by decide) hname (by decide)

end IsOfGraph

end Layout

end ShaderLang.Ir
