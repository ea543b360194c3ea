import Mathlib
import ShaderLang.Proofs.Variables

/-!
# Sizes of variables

What a variable takes up, as a number (`Ty.bytes`), against the size that its intermediate type
gives in 64-bit words. The size is the number of bytes reduced to a word (`Ty.toNat_size_toIr`), and
a declaration may give an array any length below `2 ^ 63`. So the size of a variable is right
exactly as far as the variable fits into what a word can address (`Program.size_eq_bytes_iff`):
always for a number, a vector or a matrix, and for an array unless it is very long.
-/

namespace ShaderLang

namespace Ty

/-- The bytes that a value of this type takes up: four for a number and for each lane of a vector or
a matrix, one for a truth value, none for `void`, and those of all its elements for an array. -/
def bytes : Ty → Nat
  | void | error => 0
  | bool => 1
  | int | float => 4
  | array element length => length * element.bytes
  | shaped => 4 * shaped.lanes

/-- The size of a type is what it takes up, in the arithmetic of words. -/
theorem toNat_size_toIr (t : Ty) : t.toIr.size.toNat = t.bytes % 2 ^ 64 := by
  induction t with
  | array element length ih =>
    rw [toIr, Ir.Ty.size, UInt64.toNat_mul, UInt64.toNat_ofNat', ih, bytes, ← Nat.mul_mod,
      Nat.mul_comm]
  | _ => rfl

theorem bytes_le_of_isPlain {t : Ty} (h : t.isPlain = true) : t.bytes ≤ 64 := by
  cases t <;> first | cases h; done | decide

/-- A size is right exactly where it did not wrap. -/
theorem size_toIr_eq_bytes_iff {t : Ty} : t.toIr.size.toNat = t.bytes ↔ t.bytes < 2 ^ 64 := by
  rw [toNat_size_toIr]
  constructor
  · intro h
    rw [← h]
    exact Nat.mod_lt _ (by decide)
  · exact Nat.mod_eq_of_lt

theorem bytes_lt_of_length_lt {element : Ty} {length : Nat} (h : element.isPlain = true)
    (hlength : length < 2 ^ 58) : (array element length).bytes < 2 ^ 64 := by
  have hbytes := bytes_le_of_isPlain h
  calc length * element.bytes ≤ length * 64 := Nat.mul_le_mul_left _ hbytes
    _ < 2 ^ 58 * 64 := Nat.mul_lt_mul_of_pos_right hlength (by decide)
    _ = 2 ^ 64 := by decide

end Ty

/-- The size of a variable of a program that was read is what it takes up if and only if that is
less than `2 ^ 64`. It is for everything but arrays, and for arrays of fewer than `2 ^ 58`
elements. -/
theorem Program.size_eq_bytes_iff {source : String} {p : Program}
    (h : Program.ofText? source = .ok p) {v : VarDecl} (hv : v ∈ p.variables) :
    (v.ty.toIr.size.toNat = v.ty.bytes ↔ v.ty.bytes < 2 ^ 64) ∧
    (v.ty.isArray = false → v.ty.bytes < 2 ^ 64) ∧
    ∀ element length, v.ty = .array element length → length < 2 ^ 58 → v.ty.bytes < 2 ^ 64 := by
  have hty := ((Program.asRead_of_ofText h).of_mem_variables hv).ty
  refine ⟨Ty.size_toIr_eq_bytes_iff, fun harray => ?_, fun element length heq hlength => ?_⟩
  · have hplain : v.ty.isPlain = true := by
      cases ht : v.ty <;> rw [ht] at hty harray <;> first | exact hty | cases harray
    exact Nat.lt_of_le_of_lt (Ty.bytes_le_of_isPlain hplain) (by decide)
  · rw [heq] at hty ⊢
    simp only [Ty.isDeclarable, Bool.and_eq_true] at hty
    exact Ty.bytes_lt_of_length_lt hty.1.1 hlength

/-- An array of `2 ^ 62` integers is read, and its size is zero. -/
theorem Program.size_eq_bytes_iff_of_long_array :
    ∃ p, Program.ofText? "int a[4611686018427387904];" = .ok p ∧
      ∃ v ∈ p.variables, v.ty.bytes = 2 ^ 64 ∧ v.ty.toIr.size = 0 ∧
        v.ty.toIr.size.toNat ≠ v.ty.bytes := by
  let v : VarDecl := ⟨⟨"a", ⟨4, 5⟩⟩, .array .int 4611686018427387904, none, none, ⟨0, 27⟩⟩
  have hread : Program.ofText? "int a[4611686018427387904];" = .ok [.var v] := by cbv
  have hbytes : v.ty.bytes = 2 ^ 64 := by decide
  have hiff := (Program.size_eq_bytes_iff hread (v := v) List.mem_cons_self).1
  refine ⟨_, hread, v, List.mem_cons_self, hbytes, by decide, fun heq => ?_⟩
  exact absurd (hiff.mp heq) (by rw [hbytes]; decide)

end ShaderLang
