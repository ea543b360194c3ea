import ShaderLang.Proofs.PlaceMeaning

/-!
# Lanes that are read and written

Data that are written into lanes of a vector one after the other, and what is then read from some of
its lanes. A selection reads what was written to it if its lanes are distinct, a selection that is
written back changes nothing, and no other lane changes.
-/

namespace ShaderLang

open Ir (Arithmetic Datum Machine Root World)

/-! ## Vectors -/

namespace Ir.Datum

/-- A selection with given lanes: a number, or a vector. -/
def ofLanes : List (Option Float) → Datum
  | [x] => .ofLane x
  | xs => .vector xs

/-- A number or a vector with so many lanes, some of which may be undefined. -/
def IsSelection (d : Datum) (width : Nat) : Prop :=
  ∃ xs, xs.length = width ∧ d = ofLanes xs

/-- What is written into lanes, one after the other. -/
def setLanes (d : Datum) (changes : List (Nat × Option Float)) : Datum :=
  changes.foldl (fun d (lane, x) => d.setLane (.ofLane x) lane) d

variable {d value : Datum} {k l : Nat} {x : Option Float} {xs : List (Option Float)}
  {changes : List (Nat × Option Float)}

@[simp]
theorem toLane_ofLane (x : Option Float) : (ofLane x).toLane = x := by
  cases x <;> rfl

@[simp]
theorem ofLane_toLane_lane (d : Datum) (k : Nat) : ofLane (d.lane k).toLane = d.lane k := by
  rw [lane, toLane_ofLane]

/-- Only what fits into a lane is written. -/
theorem setLane_ofLane_toLane (d value : Datum) (k : Nat) :
    d.setLane (ofLane value.toLane) k = d.setLane value k := by
  rw [setLane, setLane, toLane_ofLane]

theorem lane_setLane (d : Datum) (x : Option Float) (k l : Nat) :
    (d.setLane (ofLane x) k).lane l = if l = k then ofLane x else d.lane l := by
  rw [setLane, toLane_ofLane, lane, lane, lanes, List.getElem?_set, List.length_append,
    List.length_replicate]
  by_cases hl : l = k
  · subst hl
    rw [if_pos rfl, if_pos rfl, if_pos (by omega)]
    rfl
  · rw [if_neg (Ne.symm hl), if_neg hl, List.getElem?_append, List.getElem?_replicate]
    split
    · rfl
    · next hlt =>
      rw [List.getElem?_eq_none (Nat.le_of_not_lt hlt)]
      split <;> rfl

theorem lane_setLanes_of_notMem (h : l ∉ changes.map Prod.fst) :
    (d.setLanes changes).lane l = d.lane l := by
  induction changes generalizing d with
  | nil => rfl
  | cons change changes ih =>
    rw [List.map_cons, List.mem_cons, not_or] at h
    exact (ih h.2).trans ((lane_setLane d _ _ l).trans (if_neg h.1))

theorem lane_setLanes_of_mem (hnodup : (changes.map Prod.fst).Nodup) (h : (l, x) ∈ changes) :
    (d.setLanes changes).lane l = ofLane x := by
  induction changes generalizing d with
  | nil => cases h
  | cons change changes ih =>
    rw [List.map_cons, List.nodup_cons] at hnodup
    rcases List.mem_cons.mp h with rfl | h
    · exact (lane_setLanes_of_notMem hnodup.1).trans ((lane_setLane d _ _ l).trans (if_pos rfl))
    · exact ih hnodup.2 h

/-- A vector with as many lanes as before, if it has all of those that are written to. -/
theorem exists_setLanes_vector (h : ∀ l ∈ changes.map Prod.fst, l < xs.length) :
    ∃ ys, (vector xs).setLanes changes = vector ys ∧ ys.length = xs.length := by
  induction changes generalizing xs with
  | nil => exact ⟨xs, rfl, rfl⟩
  | cons change changes ih =>
    rw [List.map_cons, List.forall_mem_cons] at h
    obtain ⟨zs, hzs, hlength⟩ : ∃ zs, (vector xs).setLane (ofLane change.2) change.1 = vector zs ∧
        zs.length = xs.length := by
      refine ⟨_, rfl, ?_⟩
      rw [List.length_set, List.length_append, List.length_replicate, lanes]
      omega
    obtain ⟨ys, hys, hsame⟩ := @ih zs (hlength ▸ h.2)
    refine ⟨ys, ?_, hsame.trans hlength⟩
    rw [← hys, ← hzs]
    rfl

theorem vector_eq_of_lane {ys : List (Option Float)} (hlength : ys.length = xs.length)
    (h : ∀ l, (vector ys).lane l = (vector xs).lane l) : vector ys = vector xs := by
  refine congrArg vector (List.ext_getElem hlength fun l hl hl' => ?_)
  have hlane := congrArg toLane (h l)
  rwa [lane, lane, toLane_ofLane, toLane_ofLane, lanes, lanes, List.getElem?_eq_getElem hl,
    List.getElem?_eq_getElem hl'] at hlane

end Ir.Datum

namespace Meaning

open Ir.Datum (ofLane ofLanes)

variable {A : Arithmetic} {d : Datum} {k : Nat} {lanes inner mask : List Nat}
  {xs : List (Option Float)} {t : Ty}

/-! ## Selections -/

theorem selected_eq_ofLanes (d : Datum) (lanes : List Nat) :
    selected d lanes = ofLanes (lanes.map fun l => (d.lane l).toLane) := by
  have hlane : ∀ l, (d.lane l).toLane = d.lanes[l]?.join := fun l => Ir.Datum.toLane_ofLane _
  match lanes with
  | [lane] => exact (Ir.Datum.ofLane_toLane_lane d lane).symm
  | [] | _ :: _ :: _ => simp only [selected, Ir.Datum.shuffle, hlane, List.map, ofLanes]

/-- Lanes of several lanes are lanes of the same vector. -/
theorem lane_selected (hinner : inner.length ≠ 1) {j l : Nat} (hl : inner[j]? = some l) :
    (selected d inner).lane j = d.lane l := by
  have hvector : selected d inner = d.shuffle inner := by
    match inner, hinner with
    | [], _ | _ :: _ :: _, _ => rfl
  rw [hvector, Ir.Datum.shuffle, Ir.Datum.lane, Ir.Datum.lanes, List.getElem?_map, hl]
  rfl

theorem selected_selected (hinner : inner.length ≠ 1) (h : mask.mapM (inner[·]?) = some lanes) :
    selected (selected d inner) mask = selected d lanes := by
  have hlanes : mask.map (fun j => ((selected d inner).lane j).toLane) =
      lanes.map fun l => (d.lane l).toLane := by
    have hall := Lowering.forall₂_of_mapM h
    clear h
    induction hall with
    | nil => rfl
    | cons hl _ ih => rw [List.map_cons, List.map_cons, ih, lane_selected hinner hl]
  rw [selected_eq_ofLanes _ mask, hlanes, selected_eq_ofLanes]

/-! ## What a selection reads -/

/-- Distinct lanes read what was written to them. -/
theorem selected_setLanes (hnodup : lanes.Nodup) (hlength : xs.length = lanes.length) :
    selected (d.setLanes (lanes.zip xs)) lanes = ofLanes xs := by
  have hfst : (lanes.zip xs).map Prod.fst = lanes := List.map_fst_zip (Nat.le_of_eq hlength.symm)
  rw [selected_eq_ofLanes]
  refine congrArg ofLanes (List.ext_getElem (by simp [hlength]) fun i hi hi' => ?_)
  rw [List.length_map] at hi
  have hmem : (lanes[i], xs[i]) ∈ lanes.zip xs :=
    List.mem_iff_getElem.mpr ⟨i, by simp [hi, hi'], List.getElem_zip⟩
  rw [List.getElem_map, Ir.Datum.lane_setLanes_of_mem (hfst.symm ▸ hnodup) hmem,
    Ir.Datum.toLane_ofLane]

/-- A selection that is to be written back. -/
theorem map_fst_zip_self (d : Datum) (lanes : List Nat) :
    (lanes.zip (lanes.map fun l => (d.lane l).toLane)).map Prod.fst = lanes :=
  List.map_fst_zip (by simp)

/-- No lane changes if a selection is written back. -/
theorem lane_setLanes_self (hnodup : lanes.Nodup) (d : Datum) (l : Nat) :
    (d.setLanes (lanes.zip (lanes.map fun l => (d.lane l).toLane))).lane l = d.lane l := by
  have hfst := map_fst_zip_self d lanes
  by_cases hl : l ∈ lanes
  · have hmem : (l, (d.lane l).toLane) ∈ lanes.zip (lanes.map fun l => (d.lane l).toLane) := by
      rw [← List.map_prod_left_eq_zip]
      exact List.mem_map_of_mem hl
    rw [Ir.Datum.lane_setLanes_of_mem (hfst.symm ▸ hnodup) hmem, Ir.Datum.ofLane_toLane_lane]
  · exact Ir.Datum.lane_setLanes_of_notMem (hfst.symm ▸ hl)

/-- A vector that has all of these lanes stays as it is. -/
theorem setLanes_self (hnodup : lanes.Nodup) (hlt : ∀ l ∈ lanes, l < xs.length) :
    (Datum.vector xs).setLanes (lanes.zip (lanes.map fun l => ((Datum.vector xs).lane l).toLane)) =
      .vector xs := by
  have hlanes : ∀ l ∈ (lanes.zip (lanes.map fun l => ((Datum.vector xs).lane l).toLane)).map
      Prod.fst, l < xs.length := (map_fst_zip_self _ lanes).symm ▸ hlt
  obtain ⟨ys, hys, hlength⟩ := Ir.Datum.exists_setLanes_vector hlanes
  have hlane := lane_setLanes_self hnodup (.vector xs)
  rw [hys] at hlane ⊢
  exact Ir.Datum.vector_eq_of_lane hlength hlane

theorem lanesOf_vector (A : Arithmetic) (ht : t.isShaped = true) (hlength : xs.length = t.lanes) :
    lanesOf A t (.vector xs) = xs := by
  rw [lanesOf, if_pos ht]
  refine List.ext_getElem (by simp [hlength]) fun i hi hi' => ?_
  rw [List.getElem_map, List.getElem_range, Ir.Datum.lane, Ir.Datum.toLane_ofLane, Ir.Datum.lanes,
    List.getElem?_eq_getElem hi']
  rfl

/-- The lanes of a selection are those it was made of. -/
theorem lanesOf_ofLanes (A : Arithmetic) (hne : Swizzle.resultTy xs.length ≠ .error) :
    lanesOf A (Swizzle.resultTy xs.length) (ofLanes xs) = xs := by
  match xs, hne with
  | [], hne | _ :: _ :: _ :: _ :: _ :: _, hne => exact absurd rfl hne
  | [x], _ => cases x <;> rfl
  | [_, _], _ | [_, _, _], _ | [_, _, _, _], _ => exact lanesOf_vector A rfl rfl

theorem lanesOf_selected (A : Arithmetic) (hne : Swizzle.resultTy lanes.length ≠ .error)
    (d : Datum) : lanesOf A (Swizzle.resultTy lanes.length) (selected d lanes) =
      lanes.map fun l => (d.lane l).toLane := by
  have hlength : (lanes.map fun l => (d.lane l).toLane).length = lanes.length := List.length_map _
  have hlanes := lanesOf_ofLanes A (hlength.symm ▸ hne)
  rwa [hlength, ← selected_eq_ofLanes] at hlanes

end Meaning

/-! ## Variables -/

namespace Ir.World

variable {w : World} {root : Root} {d d' : Datum}

theorem read_root (w : World) (root : Root) : w.read (.address root []) = w.root root := by
  rw [read, Datum.atPath]

/-- A variable that is there holds what was written to it. -/
theorem root_write (h : (Datum.address root []).Belongs w.slots.length) (d : Datum) :
    (w.write (.address root []) d).root root = d := by
  cases root with
  | global name => simp [write, modifyRoot, World.root, Datum.setAtPath]
  | slot index =>
    have hlt : index < w.slots.length := h
    simp [write, modifyRoot, World.root, Datum.setAtPath, hlt]

/-- The last write counts. -/
theorem write_write (w : World) (root : Root) (d d' : Datum) :
    (w.write (.address root []) d).write (.address root []) d' =
      w.write (.address root []) d' := by
  cases root with
  | global name =>
    simp only [write, modifyRoot, Datum.setAtPath, World.mk.injEq, and_self, and_true]
    funext other
    split <;> rfl
  | slot index =>
    simp only [write, modifyRoot, Datum.setAtPath, World.mk.injEq, and_true, true_and]
    apply List.ext_getElem?
    intro j
    simp only [List.getElem?_modify]
    split
    · rw [Option.map_eq_map, Option.map_eq_map, Option.map_map]
      rfl
    · simp

/-- A variable that gets what it holds does not change. -/
theorem write_root (w : World) (root : Root) : w.write (.address root []) (w.root root) = w := by
  cases root with
  | global name =>
    simp only [write, modifyRoot, Datum.setAtPath, World.root]
    congr 1
    funext other
    split
    · next h => rw [h]
    · rfl
  | slot index =>
    simp only [write, modifyRoot, Datum.setAtPath, World.root]
    congr 1
    apply List.ext_getElem?
    intro j
    rw [List.getElem?_modify]
    split
    · next h =>
      subst h
      cases w.slots[index]? <;> rfl
    · simp

end Ir.World

namespace Meaning

variable {A : Arithmetic} {w : World} {root : Root} {lanes : List Nat} {t : Ty} {d : Datum}

/-- Lanes of a variable that are written one after the other. -/
theorem foldl_writeLane (h : (Datum.address root []).Belongs w.slots.length)
    (changes : List (Nat × Option Float)) :
    changes.foldl (fun w (lane, x) => writeLane (.address root []) lane (.ofLane x) w) w =
      w.write (.address root []) ((w.root root).setLanes changes) := by
  induction changes generalizing w with
  | nil => exact (w.write_root root).symm
  | cons change changes ih =>
    obtain ⟨lane, x⟩ := change
    have hlength := World.length_slots_write w (.address root [])
      ((w.root root).setLane (.ofLane x) lane)
    have hstep : writeLane (.address root []) lane (.ofLane x) w =
        w.write (.address root []) ((w.root root).setLane (.ofLane x) lane) := by
      rw [writeLane, World.read_root]
    simp only [List.foldl_cons, hstep]
    rw [ih (hlength ▸ h), World.root_write h, World.write_write]
    rfl

/-- A value with as many lanes is written to lanes of a variable. -/
theorem write_lanes_shaped (A : Arithmetic) (h : (Datum.address root []).Belongs w.slots.length)
    (ht : t.isShaped = true) (hlanes : t.lanes = lanes.length) (d : Datum) :
    (Place.lanes (.address root []) lanes).write t d w =
      w.write (.address root []) ((w.root root).setLanes (lanes.zip (lanesOf A t d))) := by
  have hzip : lanes.zip (lanesOf A t d) =
      lanes.zipIdx.map fun p => (p.1, (d.lane p.2).toLane) := by
    rw [lanesOf, if_pos ht, hlanes, List.zip_map_right, List.zipIdx_eq_zip_range',
      List.range_eq_range']
    rfl
  rw [hzip, ← foldl_writeLane h, List.foldl_map, Place.write, if_pos ht]
  simp only [Ir.Datum.ofLane_toLane_lane]

/-- A scalar is written to one lane of a variable. -/
theorem write_lanes_scalar (A : Arithmetic) (h : (Datum.address root []).Belongs w.slots.length)
    (ht : t.isShaped = false) (lane : Nat) (d : Datum) :
    (Place.lanes (.address root []) [lane]).write .float (scalar A t .float d) w =
      w.write (.address root []) ((w.root root).setLanes ([lane].zip (lanesOf A t d))) := by
  rw [← foldl_writeLane h, lanesOf, ht, if_neg Bool.false_ne_true, Place.write,
    if_neg (by decide)]
  simp only [List.zip_cons_cons, List.zip_nil_left, List.foldl_cons, List.foldl_nil, writeLane,
    Ir.Datum.setLane_ofLane_toLane]

end Meaning

end ShaderLang
