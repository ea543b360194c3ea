import Mathlib
import ShaderLang.Container

/-!
# The layout of containers

What is read from a container and what is written into it meet: the text of a module comes back out
of its container (`Container.unwrap_toContainer`), and the bytes that are taken for a container are
laid out as one (`Container.unwrap_eq_ok_iff`), the reserved bytes apart.

A container is read by taking pieces off a list, which cannot fail. `Container.unwrapAt` reads the
same bytes by index and stops at an index at which there is none; it never does.
-/

namespace ShaderLang

namespace Container

/-! ## Numbers and words in bytes -/

theorem ofLittleEndian_littleEndian {count n : Nat} (h : n < 256 ^ count) :
    ofLittleEndian (littleEndian count n) = n := by
  induction count generalizing n with
  | zero =>
    rw [pow_zero, Nat.lt_one_iff] at h
    rw [h]
    rfl
  | succ count ih =>
    have hrest : n / 256 < 256 ^ count := by
      rw [pow_succ] at h
      omega
    rw [littleEndian, ofLittleEndian, ih hrest, UInt8.toNat_ofNat']
    omega

theorem littleEndian_ofLittleEndian (bytes : List UInt8) :
    littleEndian bytes.length (ofLittleEndian bytes) = bytes := by
  induction bytes with
  | nil => rfl
  | cons byte rest ih =>
    have hbyte := byte.toNat_lt
    have hfirst : UInt8.ofNat (byte.toNat + 256 * ofLittleEndian rest) = byte := by
      apply UInt8.toNat_inj.mp
      rw [UInt8.toNat_ofNat']
      omega
    have hrest : (byte.toNat + 256 * ofLittleEndian rest) / 256 = ofLittleEndian rest := by omega
    rw [ofLittleEndian, List.length_cons, littleEndian, hfirst, hrest, ih]

theorem ofLittleEndian_lt (bytes : List UInt8) :
    ofLittleEndian bytes < 256 ^ bytes.length := by
  induction bytes with
  | nil => decide
  | cons byte rest ih =>
    have hbyte := byte.toNat_lt
    rw [ofLittleEndian, List.length_cons, pow_succ]
    omega

theorem eq_littleEndian {bytes : List UInt8} {count n : Nat} (hlength : bytes.length = count)
    (h : ofLittleEndian bytes = n) : bytes = littleEndian count n := by
  rw [← hlength, ← h, littleEndian_ofLittleEndian]

theorem toNat_wordOf (high low : UInt8) :
    (wordOf high low).toNat = 256 * high.toNat + low.toNat := by
  have hhigh := high.toNat_lt
  have hlow : low.toNat < 2 ^ 8 := low.toNat_lt
  have hshift : high.toNat <<< 8 % 2 ^ 16 = high.toNat <<< 8 := by
    rw [Nat.shiftLeft_eq]
    omega
  rw [wordOf]
  simp only [UInt16.toNat_or, UInt16.toNat_shiftLeft, UInt8.toNat_toUInt16]
  change high.toNat <<< 8 % 2 ^ 16 ||| low.toNat = _
  rw [hshift, ← Nat.shiftLeft_add_eq_or_of_lt hlow, Nat.shiftLeft_eq]
  omega

theorem wordBytes_wordOf (high low : UInt8) : wordBytes (wordOf high low) = [high, low] := by
  have hhigh := high.toNat_lt
  have hlow := low.toNat_lt
  have h := toNat_wordOf high low
  rw [wordBytes]
  congr 1
  · apply UInt8.toNat_inj.mp
    simp only [UInt16.toNat_toUInt8, UInt16.toNat_shiftRight]
    change (wordOf high low).toNat >>> 8 % 2 ^ 8 = _
    rw [Nat.shiftRight_eq_div_pow]
    omega
  · congr 1
    apply UInt8.toNat_inj.mp
    rw [UInt16.toNat_toUInt8]
    omega

theorem wordOf_wordBytes (word : UInt16) : wordOf (word >>> 8).toUInt8 word.toUInt8 = word := by
  have hword := word.toNat_lt
  apply UInt16.toNat_inj.mp
  rw [toNat_wordOf, UInt16.toNat_toUInt8, UInt16.toNat_toUInt8, UInt16.toNat_shiftRight]
  change 256 * (word.toNat >>> 8 % 2 ^ 8) + _ = _
  rw [Nat.shiftRight_eq_div_pow]
  omega

/-! ## Texts in bytes -/

theorem decode_payloadBytes (text : String) : decode (payloadBytes text) = .ok text := by
  have hbytes : (⟨(payloadBytes text).toArray⟩ : ByteArray) = text.toByteArray := by
    rw [payloadBytes, Array.toArray_toList]
    rfl
  have hread : String.fromUTF8? text.toByteArray = some text := by
    rw [String.fromUTF8?, dif_pos text.isValidUTF8]
    rfl
  rw [decode, hbytes, hread]

theorem payloadBytes_of_decode {payload : List UInt8} {text : String}
    (h : decode payload = .ok text) : payloadBytes text = payload := by
  unfold decode at h
  split at h
  · next found hread =>
    cases h
    unfold String.fromUTF8? at hread
    split at hread
    · cases hread
      rfl
    · cases hread
  · cases h

/-- The bytes of a text are as many as are counted in it. -/
theorem length_payloadBytes (text : String) : (payloadBytes text).length = text.utf8ByteSize :=
  rfl

/-! ## The layout -/

/-- A container of a text with given reserved bytes. -/
def layout (reserved : UInt16) (text : String) : List UInt8 :=
  let payload := payloadBytes text
  let bytes := magic ++ littleEndian 2 version ++ littleEndian 2 reserved.toNat
    ++ littleEndian 4 payload.length ++ payload
  bytes ++ wordBytes (checksum bytes)

/-- What is written has no reserved bytes set. -/
theorem wrap_eq_layout (text : String) : wrap text = layout 0 text :=
  rfl

/-- How bytes are read that are cut into the parts of a container. -/
theorem unwrap_parts {m v r l : List UInt8} (payload : List UInt8) (high low : UInt8)
    (hm : m.length = 4) (hv : v.length = 2) (hr : r.length = 2) (hl : l.length = 4) :
    unwrap (m ++ v ++ r ++ l ++ payload ++ [high, low]) =
      if m ≠ magic then .error .badMagic
      else if ofLittleEndian v ≠ version then .error (.unsupportedVersion (ofLittleEndian v))
      else if ofLittleEndian l ≠ payload.length then
        .error (.lengthMismatch (ofLittleEndian l) (payload.length + 14))
      else if wordOf high low ≠ checksum (m ++ v ++ r ++ l ++ payload) then
        .error (.checksumMismatch (wordOf high low) (checksum (m ++ v ++ r ++ l ++ payload)))
      else decode payload := by
  have hmvr : (m ++ v ++ r).length = 8 := by simp [hm, hv, hr]
  have hheader : (m ++ v ++ r ++ l).length = headerLength := by simp [hm, hv, hr, hl, headerLength]
  have hstop : (m ++ v ++ r ++ l ++ payload).length = headerLength + payload.length := by
    rw [List.length_append, hheader]
  have hmagic : (m ++ v ++ r ++ l ++ payload ++ [high, low]).take 4 = m := by
    simp only [List.append_assoc]
    exact List.take_left' hm
  have hversion : ((m ++ v ++ r ++ l ++ payload ++ [high, low]).drop 4).take 2 = v := by
    simp only [List.append_assoc]
    rw [List.drop_left' hm]
    exact List.take_left' hv
  have hcount : ((m ++ v ++ r ++ l ++ payload ++ [high, low]).drop 8).take 4 = l := by
    rw [List.append_assoc _ payload, List.append_assoc _ l, List.drop_left' hmvr]
    exact List.take_left' hl
  have hbody : (m ++ v ++ r ++ l ++ payload ++ [high, low]).take (headerLength + payload.length) =
      m ++ v ++ r ++ l ++ payload := List.take_left' hstop
  have hsum : (m ++ v ++ r ++ l ++ payload ++ [high, low]).drop (headerLength + payload.length) =
      [high, low] := List.drop_left' hstop
  have hpayload : (m ++ v ++ r ++ l ++ payload).drop headerLength = payload :=
    List.drop_left' hheader
  have hlength : (m ++ v ++ r ++ l ++ payload ++ [high, low]).length = payload.length + 14 := by
    rw [List.length_append, hstop, headerLength, List.length_cons, List.length_singleton]
    omega
  have hlong : ¬ payload.length + 14 < headerLength + checksumLength := by
    rw [headerLength, checksumLength]
    omega
  unfold unwrap
  dsimp only
  rw [hlength, if_neg hlong, hmagic, hversion, hcount]
  by_cases hsize : ofLittleEndian l = payload.length
  · have hmatch : payload.length + 14 = headerLength + payload.length + checksumLength := by
      rw [headerLength, checksumLength]
      omega
    rw [hsize, hbody, hsum, hpayload, if_neg (not_not.mpr hmatch), if_neg (not_not.mpr rfl)]
  · have hmismatch : payload.length + 14 ≠ headerLength + ofLittleEndian l + checksumLength := by
      rw [headerLength, checksumLength]
      omega
    rw [if_pos hmismatch, if_pos hsize]

theorem exists_split (bytes : List UInt8) (n : Nat) (h : n ≤ bytes.length) :
    ∃ front rest, bytes = front ++ rest ∧ front.length = n ∧ rest.length = bytes.length - n :=
  ⟨bytes.take n, bytes.drop n, (List.take_append_drop n bytes).symm,
    List.length_take_of_le h, List.length_drop⟩

/-- Bytes that are long enough can be cut into the parts of a container. -/
theorem exists_parts {bytes : List UInt8} (h : headerLength + checksumLength ≤ bytes.length) :
    ∃ m v r l payload high low, bytes = m ++ v ++ r ++ l ++ payload ++ [high, low] ∧
      m.length = 4 ∧ v.length = 2 ∧ r.length = 2 ∧ l.length = 4 := by
  rw [headerLength, checksumLength] at h
  obtain ⟨m, rest₁, rfl, hm, h₁⟩ := exists_split bytes 4 (by omega)
  obtain ⟨v, rest₂, rfl, hv, h₂⟩ := exists_split rest₁ 2 (by omega)
  obtain ⟨r, rest₃, rfl, hr, h₃⟩ := exists_split rest₂ 2 (by omega)
  obtain ⟨l, rest₄, rfl, hl, h₄⟩ := exists_split rest₃ 4 (by omega)
  obtain ⟨payload, sum, rfl, -, hsum⟩ :=
    exists_split rest₄ (rest₄.length - 2) (Nat.sub_le _ _)
  obtain ⟨high, low, rfl⟩ := List.length_eq_two.mp (show sum.length = 2 by omega)
  exact ⟨m, v, r, l, payload, high, low, by simp only [List.append_assoc], hm, hv, hr, hl⟩

/-- What is laid out as a container is read as one, whatever the reserved bytes are. -/
theorem unwrap_layout (reserved : UInt16) {text : String}
    (h : text.utf8ByteSize < 2 ^ 32) : unwrap (layout reserved text) = .ok text := by
  have hcount : ofLittleEndian (littleEndian 4 (payloadBytes text).length) =
      (payloadBytes text).length := ofLittleEndian_littleEndian h
  rw [layout, wordBytes, unwrap_parts _ _ _ rfl (length_littleEndian 2 _) (length_littleEndian 2 _)
    (length_littleEndian 4 _), wordOf_wordBytes, hcount, decode_payloadBytes,
    ofLittleEndian_littleEndian (by decide)]
  simp only [ne_eq, not_true_eq_false, ↓reduceIte]

/-- Every part of a container but the reserved bytes is settled by some check. -/
theorem eq_layout_of_unwrap {bytes : List UInt8} {text : String} (h : unwrap bytes = .ok text) :
    text.utf8ByteSize < 2 ^ 32 ∧ ∃ reserved, bytes = layout reserved text := by
  have hlong : headerLength + checksumLength ≤ bytes.length := by
    by_contra hshort
    rw [unwrap, if_pos (Nat.lt_of_not_le hshort)] at h
    cases h
  obtain ⟨m, v, r, l, payload, high, low, rfl, hm, hv, hr, hl⟩ := exists_parts hlong
  rw [unwrap_parts payload high low hm hv hr hl] at h
  split at h
  · cases h
  next hmagic =>
  split at h
  · cases h
  next hversion =>
  split at h
  · cases h
  next hcount =>
  split at h
  · cases h
  next hsum =>
  rw [not_not] at hmagic hversion hcount hsum
  have hpayload := payloadBytes_of_decode h
  have hlt := ofLittleEndian_lt l
  rw [hl, hcount, ← hpayload, length_payloadBytes] at hlt
  refine ⟨hlt, .ofNat (ofLittleEndian r), ?_⟩
  have hreserved : (UInt16.ofNat (ofLittleEndian r)).toNat = ofLittleEndian r := by
    have := ofLittleEndian_lt r
    rw [hr] at this
    rw [UInt16.toNat_ofNat']
    omega
  rw [layout, hreserved, ← eq_littleEndian hv hversion, ← eq_littleEndian hr rfl, hpayload,
    ← eq_littleEndian hl hcount, ← hmagic, ← hsum, wordBytes_wordOf]

/-! ## Reading by index -/

/-- What stops a reader that goes by index: a fault, an index at which there is no byte, or an
offset that does not fit into a word of 64 bits. -/
inductive Stop where
  | fault (fault : Fault)
  | outside (index : Nat)
  | overflow

/-- The byte at an index. -/
def byteAt (bytes : List UInt8) (index : Nat) : Except Stop UInt8 :=
  match bytes[index]? with
  | some byte => .ok byte
  | none => .error (.outside index)

/-- The bytes from one index up to another one. -/
def slice (bytes : List UInt8) (start stop : Nat) : Except Stop (List UInt8) :=
  if start ≤ stop ∧ stop ≤ bytes.length then .ok ((bytes.take stop).drop start)
  else .error (.outside stop)

/-- The sum of two offsets. -/
def addOffset (a b : Nat) : Except Stop Nat :=
  if a + b < 2 ^ 64 then .ok (a + b) else .error .overflow

/-- The text behind a header that gives its length, read by index. -/
def unwrapBehind (bytes : List UInt8) (length : Nat) : Except Stop String := do
  let stop ← addOffset headerLength length
  if bytes.length ≠ (← addOffset stop checksumLength) then
    .error (.fault (.lengthMismatch length bytes.length))
  else
    let stored := wordOf (← byteAt bytes stop) (← byteAt bytes (← addOffset stop 1))
    let calculated := checksum (← slice bytes 0 stop)
    if stored ≠ calculated then
      .error (.fault (.checksumMismatch stored calculated))
    else
      (decode (← slice bytes headerLength stop)).mapError .fault

/-- The text in a container, read by index: the header field by field, then what its length says. -/
def unwrapAt (bytes : List UInt8) : Except Stop String :=
  if bytes.length < headerLength + checksumLength then
    .error (.fault (.tooShort bytes.length))
  else do
    let front ← slice bytes 0 4
    if front ≠ magic then
      .error (.fault .badMagic)
    else
      let found := ofLittleEndian [← byteAt bytes 4, ← byteAt bytes 5]
      if found ≠ version then
        .error (.fault (.unsupportedVersion found))
      else
        unwrapBehind bytes (ofLittleEndian
          [← byteAt bytes 8, ← byteAt bytes 9, ← byteAt bytes 10, ← byteAt bytes 11])

theorem byteAt_eq {bytes front rest : List UInt8} {byte : UInt8} {index : Nat}
    (h : bytes = front ++ byte :: rest) (hfront : front.length = index) :
    byteAt bytes index = .ok byte := by
  rw [byteAt, h, List.getElem?_append_right (Nat.le_of_eq hfront), hfront, Nat.sub_self]
  rfl

theorem slice_eq {bytes middle rest : List UInt8} {start stop : Nat} (front : List UInt8)
    (h : bytes = front ++ middle ++ rest) (hstart : front.length = start)
    (hstop : (front ++ middle).length = stop) : slice bytes start stop = .ok middle := by
  have hle : start ≤ stop ∧ stop ≤ (front ++ middle ++ rest).length := by
    simp only [List.length_append] at hstop ⊢
    omega
  rw [slice, h, if_pos hle, List.take_left' hstop, List.drop_left' hstart]

theorem addOffset_eq {a b : Nat} (h : a + b < 2 ^ 64) : addOffset a b = .ok (a + b) :=
  if_pos h

theorem unwrapBehind_eq {bytes header payload : List UInt8} {high low : UInt8} {length : Nat}
    (hbytes : bytes = header ++ payload ++ [high, low]) (hheader : header.length = headerLength)
    (hlength : length < 256 ^ 4) :
    unwrapBehind bytes length = Except.mapError .fault
      (if length ≠ payload.length then .error (.lengthMismatch length (payload.length + 14))
      else if wordOf high low ≠ checksum (header ++ payload) then
        .error (.checksumMismatch (wordOf high low) (checksum (header ++ payload)))
      else decode payload) := by
  have hbody : (header ++ payload).length = headerLength + payload.length := by
    rw [List.length_append, hheader]
  have hsize : bytes.length = payload.length + 14 := by
    rw [hbytes, List.length_append, hbody, headerLength, List.length_cons, List.length_singleton]
    omega
  have hstop : addOffset headerLength length = .ok (headerLength + length) :=
    addOffset_eq (by rw [headerLength]; omega)
  have hsum : headerLength + length + checksumLength = length + 14 := by
    rw [headerLength, checksumLength]
    omega
  have hend : addOffset (headerLength + length) checksumLength = .ok (length + 14) :=
    hsum ▸ addOffset_eq (by omega)
  simp only [unwrapBehind, bind, Except.bind, hstop, hend, hsize]
  by_cases hmatch : length = payload.length
  · subst hmatch
    have hnext : addOffset (headerLength + payload.length) 1 =
        .ok (headerLength + payload.length + 1) := addOffset_eq (by rw [headerLength]; omega)
    have hhigh : byteAt bytes (headerLength + payload.length) = .ok high := byteAt_eq hbytes hbody
    have hlow : byteAt bytes (headerLength + payload.length + 1) = .ok low :=
      byteAt_eq (hbytes.trans (List.append_cons _ high [low]))
        (by rw [List.length_append, hbody, List.length_singleton])
    have hcovered : slice bytes 0 (headerLength + payload.length) = .ok (header ++ payload) :=
      slice_eq [] hbytes rfl hbody
    have hpayload : slice bytes headerLength (headerLength + payload.length) = .ok payload :=
      slice_eq header hbytes hheader hbody
    simp only [hnext, hhigh, hlow, hcovered, hpayload, ne_eq, not_true_eq_false, ↓reduceIte]
    split <;> rfl
  · have hmismatch : payload.length + 14 ≠ length + 14 := by omega
    rw [if_pos hmismatch, if_pos hmatch]
    rfl

/-- Going by index never gets to an index at which there is no byte, and comes to the same end. -/
theorem unwrapAt_eq (bytes : List UInt8) : unwrapAt bytes = (unwrap bytes).mapError .fault := by
  by_cases hlong : headerLength + checksumLength ≤ bytes.length
  · obtain ⟨m, v, r, l, payload, high, low, hbytes, hm, hv, hr, hl⟩ := exists_parts hlong
    have hheader : (m ++ v ++ r ++ l).length = headerLength := by
      simp only [List.length_append, hm, hv, hr, hl, headerLength]
    have hrest := unwrapBehind_eq hbytes hheader (hl ▸ ofLittleEndian_lt l)
    have hmagic : slice bytes 0 4 = .ok m :=
      slice_eq [] (by rw [hbytes]; simp only [List.append_assoc]; rfl) rfl hm
    have hunwrap := unwrap_parts payload high low hm hv hr hl
    obtain ⟨m₀, m₁, m₂, m₃, rfl⟩ := List.length_eq_four.mp hm
    obtain ⟨v₀, v₁, rfl⟩ := List.length_eq_two.mp hv
    obtain ⟨r₀, r₁, rfl⟩ := List.length_eq_two.mp hr
    obtain ⟨l₀, l₁, l₂, l₃, rfl⟩ := List.length_eq_four.mp hl
    have at4 : byteAt bytes 4 = .ok v₀ := hbytes ▸ rfl
    have at5 : byteAt bytes 5 = .ok v₁ := hbytes ▸ rfl
    have at8 : byteAt bytes 8 = .ok l₀ := hbytes ▸ rfl
    have at9 : byteAt bytes 9 = .ok l₁ := hbytes ▸ rfl
    have at10 : byteAt bytes 10 = .ok l₂ := hbytes ▸ rfl
    have at11 : byteAt bytes 11 = .ok l₃ := hbytes ▸ rfl
    rw [unwrapAt, if_neg (Nat.not_lt.mpr hlong), hmagic, hbytes, hunwrap, ← hbytes]
    simp only [bind, Except.bind, at4, at5, at8, at9, at10, at11, hrest]
    by_cases hfront : [m₀, m₁, m₂, m₃] = magic
    · rw [if_neg (not_not.mpr hfront), if_neg (not_not.mpr hfront)]
      split <;> rfl
    · rw [if_pos hfront, if_pos hfront]
      rfl
  · rw [unwrapAt, unwrap, if_pos (Nat.lt_of_not_le hlong), if_pos (Nat.lt_of_not_le hlong)]
    rfl

/-- The bytes that hold a text are those laid out as a container of it, with anything in the
reserved bytes; and reading them never goes outside them. -/
theorem unwrap_eq_ok_iff (bytes : List UInt8) :
    (∀ text, unwrap bytes = .ok text ↔
      text.utf8ByteSize < 2 ^ 32 ∧ ∃ reserved, bytes = layout reserved text) ∧
    unwrapAt bytes = (unwrap bytes).mapError .fault := by
  refine ⟨fun text => ⟨eq_layout_of_unwrap, ?_⟩, unwrapAt_eq bytes⟩
  rintro ⟨hsize, reserved, rfl⟩
  exact unwrap_layout reserved hsize

/-- Two containers of one text, of which only the second one is written. -/
example : unwrap (layout 1 "") = .ok "" ∧ layout 1 "" ≠ wrap "" := by
  decide +kernel

end Container

/-! ## Containers of modules -/

/-- The container of a module gives its text back. -/
theorem Container.unwrap_toContainer {m : Ir.Module} (h : m.text.utf8ByteSize < 2 ^ 32) :
    Container.unwrap m.toContainer = .ok m.text := by
  rw [Ir.Module.toContainer, wrap_eq_layout]
  exact unwrap_layout 0 h

theorem Container.unwrap_toContainer_of_global :
    Container.unwrap (Ir.Module.toContainer ⟨"sample", [⟨"g", .i32, none⟩], []⟩) =
      .ok "; module sample\n@g = global i32 zeroinitializer\n" :=
  unwrap_toContainer (m := ⟨"sample", [⟨"g", .i32, none⟩], []⟩) (by decide +kernel)

end ShaderLang
