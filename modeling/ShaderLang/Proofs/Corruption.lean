import ShaderLang.Proofs.ContainerLayout

/-!
# Damaged containers

What happens to a container on its way does not go unnoticed if it is small: a byte that is changed,
two neighbouring bytes that are changed in front of the checksum, an end that is cut off, and bytes
that are added at the end are all refused (`Container.rejects_damaged`).

A byte counts in the checksum with the weight 256 or 1, in turn. Two neighbouring bytes therefore
count as the two digits of one word to the base 256, in one order or the other, and no other two
bytes there can leave the sum as it is (`Container.eq_of_checksum_eq`).
-/

namespace ShaderLang

namespace Container

/-! ## Weights -/

/-- The sum of bytes that count 256 times or once, in turn. -/
def weigh (weight : Nat) : List UInt8 → Nat
  | [] => 0
  | byte :: rest => weight * byte.toNat + weigh (257 - weight) rest

theorem toNat_addWords (sum : UInt16) (bytes : List UInt8) :
    (addWords sum bytes).toNat = (sum.toNat + weigh 256 bytes) % 2 ^ 16 := by
  fun_induction addWords sum bytes with
  | case1 sum high low rest ih =>
    rw [ih, UInt16.toNat_add, toNat_wordOf]
    simp only [weigh, Nat.reduceSub]
    omega
  | case2 sum high =>
    rw [UInt16.toNat_add, toNat_wordOf]
    simp only [weigh, UInt8.toNat_zero]
  | case3 sum =>
    have := sum.toNat_lt
    simp only [weigh]
    omega

theorem toNat_checksum (bytes : List UInt8) :
    (checksum bytes).toNat = weigh 256 bytes % 2 ^ 16 := by
  rw [checksum, toNat_addWords, UInt16.toNat_zero, Nat.zero_add]

/-- Behind some bytes the weights go on with one or the other. -/
theorem exists_weigh_append (front : List UInt8) {weight : Nat} (h : weight = 256 ∨ weight = 1) :
    ∃ behind, (behind = 256 ∨ behind = 1) ∧
      ∀ rest, weigh weight (front ++ rest) = weigh weight front + weigh behind rest := by
  induction front generalizing weight with
  | nil => exact ⟨weight, h, fun rest => by simp [weigh]⟩
  | cons byte front ih =>
    obtain ⟨behind, hbehind, happend⟩ := @ih (257 - weight) (by omega)
    refine ⟨behind, hbehind, fun rest => ?_⟩
    simp only [List.cons_append, weigh, happend, Nat.add_assoc]

/-- The sum tells apart what one or two neighbouring bytes are. -/
theorem eq_of_checksum_eq {front old new rest : List UInt8} (hlength : new.length = old.length)
    (hfew : old.length ≤ 2)
    (h : checksum (front ++ new ++ rest) = checksum (front ++ old ++ rest)) : new = old := by
  obtain ⟨behind, hbehind, happend⟩ := exists_weigh_append front (.inl rfl)
  have hsum := congrArg UInt16.toNat h
  rw [toNat_checksum, toNat_checksum, List.append_assoc, List.append_assoc, happend,
    happend] at hsum
  match old, new, hlength with
  | [], [], _ => rfl
  | [a], [a'], _ =>
    have ha := a.toNat_lt
    have ha' := a'.toNat_lt
    have heq : a'.toNat = a.toNat := by
      simp only [List.cons_append, List.nil_append, weigh] at hsum
      rcases hbehind with rfl | rfl <;> omega
    rw [UInt8.toNat_inj.mp heq]
  | [a, b], [a', b'], _ =>
    have ha := a.toNat_lt
    have ha' := a'.toNat_lt
    have hb := b.toNat_lt
    have hb' := b'.toNat_lt
    have heq : a'.toNat = a.toNat ∧ b'.toNat = b.toNat := by
      simp only [List.cons_append, List.nil_append, weigh] at hsum
      rcases hbehind with rfl | rfl <;> omega
    rw [UInt8.toNat_inj.mp heq.1, UInt8.toNat_inj.mp heq.2]

/-! ## Sealed bytes -/

/-- What ends in the checksum of what comes before. -/
def IsSealed (bytes : List UInt8) : Prop :=
  ∃ body, bytes = body ++ wordBytes (checksum body)

theorem isSealed_layout (reserved : UInt16) (text : String) : IsSealed (layout reserved text) :=
  ⟨_, rfl⟩

theorem wordBytes_inj {a b : UInt16} (h : wordBytes a = wordBytes b) : a = b := by
  rw [wordBytes, wordBytes, List.cons.injEq, List.cons.injEq] at h
  rw [← wordOf_wordBytes a, ← wordOf_wordBytes b, h.1, h.2.1]

/-- What is sealed with a front that it shares is the same. -/
theorem eq_of_isSealed_of_front {front rest rest' : List UInt8}
    (hlength : rest'.length = rest.length)
    (hfew : rest.length ≤ 2) (hold : IsSealed (front ++ rest)) (hnew : IsSealed (front ++ rest')) :
    rest' = rest := by
  obtain ⟨body, hbody⟩ := hold
  obtain ⟨body', hbody'⟩ := hnew
  have hsize := congrArg List.length hbody
  have hsize' := congrArg List.length hbody'
  simp only [List.length_append, wordBytes, List.length_cons, List.length_nil] at hsize hsize'
  have hfront : front.take body.length = body := by
    have htake := congrArg (List.take body.length) hbody
    rwa [List.take_left, List.take_append_of_le_length (by omega)] at htake
  have hfront' : front.take body'.length = body' := by
    have htake := congrArg (List.take body'.length) hbody'
    rwa [List.take_left, List.take_append_of_le_length (by omega)] at htake
  have hsame : body' = body := by
    rw [← hfront', ← hfront]
    congr 1
    omega
  rw [hsame, ← hbody] at hbody'
  exact List.append_cancel_left hbody'

/-- One byte, or two in front of the checksum, cannot be changed in sealed bytes so that they are
sealed again. -/
theorem eq_of_isSealed {front old new rest : List UInt8} (hlength : new.length = old.length)
    (hfew : old.length = 1 ∨ old.length = 2 ∧ checksumLength ≤ rest.length)
    (hold : IsSealed (front ++ old ++ rest)) (hnew : IsSealed (front ++ new ++ rest)) :
    new = old := by
  rcases Nat.lt_or_ge rest.length 2 with hlast | hbefore
  · have hone : old.length = 1 := by
      rcases hfew with h | ⟨-, h⟩
      · exact h
      · exact absurd h (Nat.not_le.mpr hlast)
    rw [List.append_assoc] at hold hnew
    have htail := eq_of_isSealed_of_front (by simp [hlength]) (by simp; omega) hold hnew
    exact List.append_cancel_right htail
  · obtain ⟨behind, sum, rfl, -, hsum⟩ := exists_split rest (rest.length - 2) (Nat.sub_le _ _)
    have htwo : sum.length = 2 := by omega
    obtain ⟨body, hbody⟩ := hold
    obtain ⟨body', hbody'⟩ := hnew
    rw [← List.append_assoc] at hbody hbody'
    obtain ⟨hcovered, hseal⟩ := List.append_inj' hbody htwo
    obtain ⟨hcovered', hseal'⟩ := List.append_inj' hbody' htwo
    have hchecksum : checksum body' = checksum body := wordBytes_inj (hseal'.symm.trans hseal)
    rw [← hcovered, ← hcovered'] at hchecksum
    exact eq_of_checksum_eq hlength (by omega) hchecksum

/-! ## The length -/

theorem length_layout (reserved : UInt16) (text : String) :
    (layout reserved text).length = text.utf8ByteSize + 14 := by
  simp only [layout, List.length_append, length_littleEndian, length_payloadBytes, magic, wordBytes,
    List.length_cons, List.length_nil]
  omega

/-- The last bytes of the header tell the length of the text. -/
theorem ofLittleEndian_layout (reserved : UInt16) {text : String}
    (h : text.utf8ByteSize < 2 ^ 32) :
    ofLittleEndian (((layout reserved text).take headerLength).drop 8) = text.utf8ByteSize := by
  have hfront : (magic ++ littleEndian 2 version ++ littleEndian 2 reserved.toNat).length = 8 := by
    simp [magic]
  have hheader : (magic ++ littleEndian 2 version ++ littleEndian 2 reserved.toNat
      ++ littleEndian 4 (payloadBytes text).length).length = headerLength := by
    rw [List.length_append, hfront, length_littleEndian, headerLength]
  rw [layout, List.append_assoc _ (payloadBytes text), List.take_left' hheader,
    List.drop_left' hfront]
  exact ofLittleEndian_littleEndian h

/-- No container goes on as another one. -/
theorem eq_nil_of_layout_append {reserved reserved' : UInt16} {text text' : String}
    (h : text.utf8ByteSize < 2 ^ 32) (h' : text'.utf8ByteSize < 2 ^ 32) {rest : List UInt8}
    (heq : layout reserved text ++ rest = layout reserved' text') : rest = [] := by
  have hlong : headerLength ≤ (layout reserved text).length := by
    rw [length_layout, headerLength]
    omega
  have hsize : text.utf8ByteSize = text'.utf8ByteSize := by
    rw [← ofLittleEndian_layout reserved h, ← ofLittleEndian_layout reserved' h', ← heq,
      List.take_append_of_le_length hlong]
  have hlength := congrArg List.length heq
  rw [List.length_append, length_layout, length_layout, hsize] at hlength
  exact List.eq_nil_of_length_eq_zero (by omega)

/-! ## Damage -/

/-- The bytes are no container. -/
def Rejects (bytes : List UInt8) : Prop :=
  ∃ fault, unwrap bytes = .error fault

/-- What is not refused is laid out as a container. -/
theorem rejects_of_not_layout {bytes : List UInt8}
    (h : ∀ reserved text, text.utf8ByteSize < 2 ^ 32 → bytes ≠ layout reserved text) :
    Rejects bytes := by
  cases hread : unwrap bytes with
  | error fault => exact ⟨fault, hread⟩
  | ok text =>
    obtain ⟨hsize, reserved, hbytes⟩ := eq_layout_of_unwrap hread
    exact absurd hbytes (h reserved text hsize)

/-- A container of a text that is not too long is no longer one when one byte is changed, or two
neighbouring bytes in front of the checksum, when its end is missing, or when bytes are added to
its end. -/
theorem rejects_damaged {m : Ir.Module} (h : m.text.utf8ByteSize < 2 ^ 32) :
    (∀ front old new rest, m.toContainer = front ++ old ++ rest → new.length = old.length →
      new ≠ old → old.length = 1 ∨ old.length = 2 ∧ checksumLength ≤ rest.length →
      Rejects (front ++ new ++ rest)) ∧
    (∀ n < m.toContainer.length, Rejects (m.toContainer.take n)) ∧
    ∀ extra ≠ [], Rejects (m.toContainer ++ extra) := by
  have hlayout : m.toContainer = layout 0 m.text := wrap_eq_layout m.text
  rw [hlayout]
  refine ⟨?_, ?_, ?_⟩
  · intro front old new rest hbytes hlength hne hfew
    refine rejects_of_not_layout fun reserved text _ heq => hne ?_
    exact eq_of_isSealed hlength hfew (hbytes ▸ isSealed_layout 0 m.text)
      (heq ▸ isSealed_layout reserved text)
  · intro n hn
    refine rejects_of_not_layout fun reserved text hsize heq => ?_
    have hrest := eq_nil_of_layout_append hsize h
      (heq ▸ List.take_append_drop n (layout 0 m.text))
    exact absurd (List.drop_eq_nil_iff.mp hrest) (Nat.not_le.mpr hn)
  · intro extra hextra
    exact rejects_of_not_layout fun reserved text hsize heq =>
      hextra (eq_nil_of_layout_append h hsize heq)

/-- A reserved byte is not looked at, but counts in the checksum. -/
theorem rejects_damaged_of_reserved :
    let m : Ir.Module := ⟨"sample", [⟨"g", .i32, none⟩], []⟩
    m.text.utf8ByteSize < 2 ^ 32 ∧
    m.toContainer = m.toContainer.take 6 ++ [0] ++ m.toContainer.drop 7 ∧
    Rejects (m.toContainer.take 6 ++ [1] ++ m.toContainer.drop 7) := by
  intro m
  have hsize : m.text.utf8ByteSize < 2 ^ 32 := by decide +kernel
  have hbytes : m.toContainer = m.toContainer.take 6 ++ [0] ++ m.toContainer.drop 7 := by
    decide +kernel
  exact ⟨hsize, hbytes,
    (rejects_damaged hsize).1 _ [0] [1] _ hbytes rfl (by decide) (.inl rfl)⟩

end Container

end ShaderLang
