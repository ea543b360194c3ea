import ShaderLang.Proofs.Emission
import ShaderLang.Proofs.Machine

/-!
# Executing straight-line code

What the code that an action adds does when it runs. The temporary values of a function are given
once each, so an operand that holds a datum in one state still does later (`Machine.Holds.later`),
and the code of an action can be described by what it makes of the state it begins in (`Executes`).
-/

namespace ShaderLang

namespace Ir

/-- A state that code leads to which gives the temporary values from `n` on and below `n'`. -/
structure State.Later (n : Nat) (s : State) (n' : Nat) (s' : State) : Prop where
  le : n ≤ n'
  temps : ∀ t < n, s'.temps t = s.temps t

/-- An operand that is given by now, and what it stands for. -/
structure Machine.Holds (m : Machine) (n : Nat) (s : State) (v : Value) (d : Datum) : Prop where
  below : ∀ t, v.temp? = some t → t < n
  read : m.read s v = d

variable {m : Machine} {n n' n'' : Nat} {s s' s'' : State} {v : Value} {d : Datum}

namespace State.Later

theorem refl (n : Nat) (s : State) : s.Later n n s :=
  ⟨Nat.le_refl n, fun _ _ => rfl⟩

theorem trans (h : s.Later n n' s') (h' : s'.Later n' n'' s'') : s.Later n n'' s'' :=
  ⟨Nat.le_trans h.le h'.le, fun t ht =>
    (h'.temps t (Nat.lt_of_lt_of_le ht h.le)).trans (h.temps t ht)⟩

end State.Later

namespace Machine.Holds

theorem later (h : m.Holds n s v d) (hs : s.Later n n' s') : m.Holds n' s' v d := by
  refine ⟨fun t ht => Nat.lt_of_lt_of_le (h.below t ht) hs.le, ?_⟩
  rw [← h.read]
  cases v with
  | temp t => exact hs.temps t (h.below t rfl)
  | _ => rfl

/-- A constant is given from the beginning. -/
theorem constant (hv : v.temp? = none) (hd : m.read s v = d) : m.Holds n s v d :=
  ⟨fun _ ht => absurd (hv.symm.trans ht) nofun, hd⟩

theorem temp (m : Machine) (n : Nat) (s : State) (d : Datum) :
    m.Holds (n + 1) (s.set n d) (.temp n) d :=
  ⟨fun _ ht => Option.some.inj ht ▸ Nat.lt_succ_self n, if_pos rfl⟩

end Machine.Holds

end Ir

namespace Lowering

open Ir (Inst Build State Machine World Datum)

variable {α β : Type} {m : Machine} {n n' : Nat} {s s' : State}

/-- The action adds straight-line code, and running that code in a state leads to one with the
property `Q`, which also speaks of the result and of the number of the next temporary value. -/
def Executes (m : Machine) (x : Emit α) (n : Nat) (s : State) (Q : α → Nat → State → Prop) : Prop :=
  Linear x n fun a code n' => (∀ t < n, (m.runAll code s).temps t = s.temps t) ∧
    Q a n' (m.runAll code s)

namespace Executes

variable {x : Emit α} {P Q : α → Nat → State → Prop}

theorem imp (h : Executes m x n s P) (hPQ : ∀ a n' s', s.Later n n' s' → P a n' s' → Q a n' s') :
    Executes m x n s Q := by
  obtain ⟨a, code, n', hcode, hx, htemps, hP⟩ := h
  exact ⟨a, code, n', hcode, hx, htemps, hPQ a n' _ ⟨hcode.1, htemps⟩ hP⟩

theorem pure {a : α} (h : Q a n s) : Executes m (pure a) n s Q :=
  Linear.pure ⟨fun _ _ => rfl, h⟩

theorem bind {f : α → Emit β} {R : β → Nat → State → Prop} (hx : Executes m x n s P)
    (hf : ∀ a n' s', s.Later n n' s' → P a n' s' → Executes m (f a) n' s' R) :
    Executes m (x >>= f) n s R := by
  obtain ⟨a, code, n', hcode, hx, htemps, hP⟩ := hx
  obtain ⟨r, code', n'', hcode', hf, htemps', hR⟩ := hf a n' _ ⟨hcode.1, htemps⟩ hP
  refine ⟨r, code ++ code', n'', hcode.append hcode', fun b hb hn => ?_, fun t ht => ?_, ?_⟩
  · rw [Emit.bind_eq (hx b hb hn), hf _ ((Ir.Builder.IsOpen.append code n').mpr hb) (by simp),
      Ir.Builder.append_append]
  · rw [Machine.runAll_append, htemps' t (Nat.lt_of_lt_of_le ht hcode.1), htemps t ht]
  · rw [Machine.runAll_append]
    exact hR

/-- An instruction without a result. -/
theorem emit {inst : Inst} {w : World} {Q : Unit → Nat → State → Prop} (hr : inst.result? = none)
    (hrun : m.run s inst = { s with world := w }) (h : Q () n { s with world := w }) :
    Executes m (liftM (Build.emit inst)) n s Q := by
  refine Linear.emit hr ⟨fun t _ => ?_, ?_⟩
  · rw [Machine.runAll_cons, hrun, Machine.runAll_nil]
  · rw [Machine.runAll_cons, hrun]
    exact h

/-- An instruction that gives a temporary value. -/
theorem emitValue {inst : Nat → Inst} {w : World} {d : Datum} {Q : Ir.Value → Nat → State → Prop}
    (hr : (inst n).result? = some n) (hrun : m.run s (inst n) = { s with world := w }.set n d)
    (h : Q (.temp n) (n + 1) ({ s with world := w }.set n d)) :
    Executes m (liftM (Build.emitValue inst)) n s Q := by
  refine Linear.emitValue hr ⟨fun t ht => ?_, ?_⟩
  · rw [Machine.runAll_cons, hrun, Machine.runAll_nil]
    exact if_neg (Nat.ne_of_lt ht)
  · rw [Machine.runAll_cons, hrun]
    exact h

end Executes

/-- The code evaluates to a datum, and leads from the world that it begins in to another one. -/
def Gives (m : Machine) (x : Emit Ir.Value) (n : Nat) (s : State) (d : Datum) (w : World) : Prop :=
  Executes m x n s fun v n' s' => m.Holds n' s' v d ∧ s'.world = w

/-- A value of a type, and what it stands for. -/
structure HoldsTyped (m : Machine) (n : Nat) (s : State) (a : TypedValue) (t : Ty) (d : Datum) :
    Prop where
  ty : a.ty = t
  value : m.Holds n s a.value d

/-- The code evaluates to a datum of a type, and leads to another world. -/
def GivesTyped (m : Machine) (x : Emit TypedValue) (n : Nat) (s : State) (t : Ty) (d : Datum)
    (w : World) : Prop :=
  Executes m x n s fun a n' s' => HoldsTyped m n' s' a t d ∧ s'.world = w

variable {d d' : Datum} {v v' : Ir.Value} {t : Ty} {w : World}

theorem HoldsTyped.later {a : TypedValue} (h : HoldsTyped m n s a t d) (hs : s.Later n n' s') :
    HoldsTyped m n' s' a t d :=
  ⟨h.ty, h.value.later hs⟩

namespace Gives

theorem pure (h : m.Holds n s v d) : Gives m (Pure.pure v) n s d s.world :=
  Executes.pure ⟨h, rfl⟩

theorem bind {x : Emit Ir.Value} {f : Ir.Value → Emit β} {R : β → Nat → State → Prop}
    (hx : Gives m x n s d w)
    (hf : ∀ v n' s', s.Later n n' s' → m.Holds n' s' v d → s'.world = w →
      Executes m (f v) n' s' R) : Executes m (x >>= f) n s R :=
  Executes.bind hx fun v n' s' hs h => hf v n' s' hs h.1 h.2

/-- The result is given a type. -/
theorem typed {x : Emit Ir.Value} (hx : Gives m x n s d w) (t : Ty) :
    GivesTyped m (do let v ← x; Pure.pure ⟨v, t⟩) n s t d w :=
  hx.bind fun _ _ _ _ hv hw => Executes.pure ⟨⟨rfl, hv⟩, hw⟩

end Gives

theorem GivesTyped.bind {x : Emit TypedValue} {f : TypedValue → Emit β}
    {R : β → Nat → State → Prop} (hx : GivesTyped m x n s t d w)
    (hf : ∀ a n' s', s.Later n n' s' → HoldsTyped m n' s' a t d → s'.world = w →
      Executes m (f a) n' s' R) : Executes m (x >>= f) n s R :=
  Executes.bind hx fun a n' s' hs h => hf a n' s' hs h.1 h.2

/-! ## Instructions -/

/-- An instruction that only computes. -/
theorem emitValue_gives {inst : Nat → Inst} (hr : (inst n).result? = some n)
    (hrun : m.run s (inst n) = s.set n d) : Gives m (liftM (Build.emitValue inst)) n s d s.world :=
  Executes.emitValue hr hrun ⟨.temp m n s d, rfl⟩

theorem binary_gives (op : Ir.BinaryOp) (ty : Ir.Ty) (hl : m.Holds n s v d)
    (hr : m.Holds n s v' d') :
    Gives m (liftM (Build.binary op ty v v')) n s (op.run m.arithmetic d d') s.world :=
  emitValue_gives rfl (by rw [Machine.run, hl.read, hr.read])

theorem compare_gives (p : Ir.Predicate) (hl : m.Holds n s v d) (hr : m.Holds n s v' d') :
    Gives m (liftM (Build.compare p v v')) n s (p.run m.arithmetic d d') s.world :=
  emitValue_gives rfl (by rw [Machine.run, hl.read, hr.read])

theorem insertLane_gives (lane : Nat) (hv : m.Holds n s v d) (hx : m.Holds n s v' d') :
    Gives m (liftM (Build.insertLane v v' lane)) n s (d.setLane d' lane) s.world :=
  emitValue_gives rfl (by rw [Machine.run, hv.read, hx.read])

theorem shuffle_gives (mask : List Nat) (hv : m.Holds n s v d) :
    Gives m (liftM (Build.shuffle v mask)) n s (d.shuffle mask) s.world :=
  emitValue_gives rfl (by rw [Machine.run, hv.read])

theorem read_foldConversion? {op : Ir.Conversion} {folded : Ir.Value}
    (h : Build.foldConversion? op v = some folded) (m : Machine) (s : State) :
    folded.temp? = none ∧ m.read s folded = op.run (m.read s v) := by
  unfold Build.foldConversion? at h
  split at h <;> first | (cases h; exact ⟨rfl, rfl⟩) | cases h

/-- A conversion computes the same whether it is made at once or by an instruction. -/
theorem convert_gives (op : Ir.Conversion) (hv : m.Holds n s v d) :
    Gives m (liftM (Build.convert op v)) n s (op.run d) s.world := by
  rw [Build.convert_eq]
  split
  · next folded hfold =>
    obtain ⟨htemp, hread⟩ := read_foldConversion? hfold m s
    exact .pure (.constant htemp (hread.trans (by rw [hv.read])))
  · exact emitValue_gives rfl (by rw [Machine.run, hv.read])

theorem read_foldLane? {lane : Nat} {folded : Ir.Value} (h : Build.foldLane? v lane = some folded)
    (m : Machine) (s : State) :
    folded.temp? = none ∧ m.read s folded = (m.read s v).lane lane := by
  unfold Build.foldLane? at h
  split at h
  · next lanes lane =>
    obtain ⟨x, hx, rfl⟩ := Option.map_eq_some_iff.mp h
    refine ⟨rfl, ?_⟩
    simp [Machine.read, Datum.lane, Datum.lanes, Datum.ofLane, hx]
  · cases h

/-- A lane is the same whether it is read at once or by an instruction. -/
theorem extractLane_gives (lane : Nat) (hv : m.Holds n s v d) :
    Gives m (liftM (Build.extractLane v lane)) n s (d.lane lane) s.world := by
  rw [Build.extractLane_eq]
  split
  · next folded hfold =>
    obtain ⟨htemp, hread⟩ := read_foldLane? hfold m s
    exact .pure (.constant htemp (hread.trans (by rw [hv.read])))
  · exact emitValue_gives rfl (by rw [Machine.run, hv.read])

end Lowering

end ShaderLang
