import ThreeAddress.Text.Utf8

namespace ThreeAddress.Text

theorem toNat_ofNat {n : Nat} (h : n.isValidChar) : (Char.ofNat n).toNat = n := by
  rw [Char.ofNat, dif_pos h]
  rfl

theorem toNat_ofNat_octet (b : UInt8) : (Char.ofNat b.toNat).toNat = b.toNat := by
  have hb := b.toNat_lt
  exact toNat_ofNat (.inl (by omega))

theorem octet_inj {b b' : UInt8} (h : Char.ofNat b.toNat = Char.ofNat b'.toNat) : b = b' := by
  apply UInt8.toNat.inj
  rw [← toNat_ofNat_octet b, h, toNat_ofNat_octet]

/-- An ASCII octet is the encoding of its character. -/
theorem utf8EncodeChar_ascii {b : UInt8} (hb : b < 0x80) :
    String.utf8EncodeChar (Char.ofNat b.toNat) = [b] := by
  have hv : (Char.ofNat b.toNat).val.toNat = b.toNat := toNat_ofNat_octet b
  have hlt : b.toNat < 0x80 := hb
  have hsize : (Char.ofNat b.toNat).utf8Size = 1 := by
    rw [Char.utf8Size_eq_one_iff, UInt32.le_iff_toNat_le, hv]
    exact Nat.le_of_lt_succ hlt
  rw [String.utf8EncodeChar_eq_singleton hsize]
  have : (Char.ofNat b.toNat).val.toUInt8 = b := by
    apply UInt8.toNat.inj
    rw [UInt32.toNat_toUInt8, hv]
    omega
  rw [this]

/-- The encoding of ASCII text is the text. -/
theorem encode_ascii {bytes : List UInt8} (h : ∀ b ∈ bytes, b < 0x80) :
    (ascii bytes).flatMap String.utf8EncodeChar = bytes := by
  induction bytes with
  | nil => rfl
  | cons b bytes ih =>
    obtain ⟨hb, hbytes⟩ := List.forall_mem_cons.mp h
    have hrest := ih hbytes
    simp only [ascii] at hrest
    simp [ascii, utf8EncodeChar_ascii hb, hrest]

theorem toList_loop (bs : ByteArray) (i : Nat) (r : List UInt8) :
    ByteArray.toList.loop bs i r = r.reverse ++ bs.data.toList.drop i := by
  fun_induction ByteArray.toList.loop bs i r with
  | case1 i r h ih =>
    have hi : i < bs.data.toList.length := by simpa using h
    rw [ih, List.drop_eq_getElem_cons hi]
    simp [ByteArray.get!, h]
  | case2 i r h =>
    have hi : bs.data.toList.length ≤ i := by simpa using h
    rw [List.drop_eq_nil_of_le hi, List.append_nil]

theorem toList_eq (bs : ByteArray) : bs.toList = bs.data.toList := by
  rw [ByteArray.toList, toList_loop]
  rfl

/-- The encoding of a text is that of its characters, one behind the other. -/
theorem toList_toUTF8_ofList (cs : List Char) :
    (String.ofList cs).toUTF8.toList = cs.flatMap String.utf8EncodeChar := by
  rw [toList_eq, String.toUTF8_eq_toByteArray, String.toByteArray_ofList, List.utf8Encode,
    List.toList_data_toByteArray]

/-- Every completion of a character under way is a character beyond ASCII. -/
def Beyond : (owed bits low high : Nat) → Prop
  | 0, bits, low, high => ∀ b, low ≤ b → b ≤ high →
    0x80 ≤ bits * 64 + (b - 0x80) ∧ (bits * 64 + (b - 0x80)).isValidChar
  | owed + 1, bits, low, high => ∀ b, low ≤ b → b ≤ high →
    Beyond owed (bits * 64 + (b - 0x80)) 0x80 0xBF

theorem beyond_of_one {bits : Nat} (h : 2 ≤ bits) (h' : bits < 0x20) : Beyond 0 bits 0x80 0xBF := by
  intro b hlow hhigh
  simp only [Nat.isValidChar]
  omega

theorem beyond_of_two {bits low high : Nat} (hlow : 0x80 ≤ low)
    (h : 0x20 ≤ bits * 64 + (low - 0x80))
    (h' : bits * 64 + (high - 0x80) < 0x360 ∨
      0x380 ≤ bits * 64 + (low - 0x80) ∧ bits * 64 + (high - 0x80) < 0x400) :
    Beyond 1 bits low high := by
  intro b hb hb' c hc hc'
  simp only [Nat.isValidChar]
  omega

theorem beyond_of_three {bits low high : Nat} (hlow : 0x80 ≤ low)
    (h : 0x10 ≤ bits * 64 + (low - 0x80)) (h' : bits * 64 + (high - 0x80) < 0x110) :
    Beyond 2 bits low high := by
  intro b hb hb' c hc hc' d hd hd'
  simp only [Nat.isValidChar]
  omega

theorem between_of_le {b low high : UInt8} (h : (low ≤ b && b ≤ high) = true) :
    low.toNat ≤ b.toNat ∧ b.toNat ≤ high.toNat := by
  simpa [UInt8.le_iff_toNat_le] using h

/-- A first octet is ASCII, or ill-formed, or leaves a character under way. The ranges of the second
octet leave out overlong forms, surrogates and numbers that are too large. -/
theorem first_cases (b : UInt8) :
    b < 0x80 ∧ first b = ([some (Char.ofNat b.toNat)], none) ∨ first b = ([none], none) ∨
      ∃ p, first b = ([], some p) ∧ Beyond p.owed p.bits p.low.toNat p.high.toNat := by
  rw [first]
  by_cases h : b < 0x80
  · rw [if_pos h]
    exact .inl ⟨h, rfl⟩
  rw [if_neg h]
  refine .inr ?_
  by_cases h : (0xC2 ≤ b && b ≤ 0xDF) = true
  · rw [if_pos h]
    obtain ⟨hlow, hhigh⟩ : 0xC2 ≤ b.toNat ∧ b.toNat ≤ 0xDF := between_of_le h
    exact .inr ⟨_, rfl, beyond_of_one (by dsimp only; omega) (by dsimp only; omega)⟩
  rw [if_neg h]
  by_cases h : (b == 0xE0) = true
  · rw [if_pos h]
    exact .inr ⟨_, rfl, beyond_of_two (by decide) (by decide) (.inl (by decide))⟩
  rw [if_neg h]
  by_cases hgap : (b == 0xED) = true
  · rw [if_pos hgap]
    exact .inr ⟨_, rfl, beyond_of_two (by decide) (by decide) (.inl (by decide))⟩
  rw [if_neg hgap]
  by_cases h : (0xE1 ≤ b && b ≤ 0xEF) = true
  · rw [if_pos h]
    obtain ⟨hlow, hhigh⟩ : 0xE1 ≤ b.toNat ∧ b.toNat ≤ 0xEF := between_of_le h
    have hne : b.toNat ≠ 0xED := fun heq => hgap (beq_iff_eq.mpr (UInt8.toNat.inj heq))
    exact .inr ⟨_, rfl, beyond_of_two (Nat.le_refl _) (by simp; omega) (by simp; omega)⟩
  rw [if_neg h]
  by_cases h : (b == 0xF0) = true
  · rw [if_pos h]
    exact .inr ⟨_, rfl, beyond_of_three (by decide) (by decide) (by decide)⟩
  rw [if_neg h]
  by_cases h : (b == 0xF4) = true
  · rw [if_pos h]
    exact .inr ⟨_, rfl, beyond_of_three (by decide) (by decide) (by decide)⟩
  rw [if_neg h]
  by_cases h : (0xF1 ≤ b && b ≤ 0xF3) = true
  · rw [if_pos h]
    obtain ⟨hlow, hhigh⟩ : 0xF1 ≤ b.toNat ∧ b.toNat ≤ 0xF3 := between_of_le h
    exact .inr ⟨_, rfl, beyond_of_three (Nat.le_refl _) (by simp; omega) (by simp; omega)⟩
  rw [if_neg h]
  exact .inl rfl

theorem decodeFrom_cons (p : Option Pending) (b : UInt8) (bytes : List UInt8) :
    decodeFrom p (b :: bytes) = (advance p b).1 ++ decodeFrom (advance p b).2 bytes := by
  cases p <;> rfl

/-- What comes out first of a character under way is not ASCII. -/
theorem not_ascii_of_pending {p : Pending} (hp : Beyond p.owed p.bits p.low.toNat p.high.toNat)
    {bytes : List UInt8} {o : Option Char} {os : List (Option Char)}
    (h : decodeFrom (some p) bytes = o :: os) : 0x80 ≤ (o.getD '\uFFFD').toNat := by
  induction bytes generalizing p with
  | nil =>
    cases h
    decide
  | cons b bytes ih =>
    obtain ⟨bits, owed, low, high⟩ := p
    rw [decodeFrom_cons, advance] at h
    split at h
    · next hb =>
      obtain ⟨hlow, hhigh⟩ := between_of_le hb
      cases owed with
      | zero =>
        obtain ⟨hlarge, hvalid⟩ := hp b.toNat hlow hhigh
        cases h
        rw [Option.getD_some, toNat_ofNat hvalid]
        exact hlarge
      | succ owed => exact ih (hp b.toNat hlow hhigh) h
    · cases h
      decide

theorem decodeFrom_pending_split {p : Pending} {bytes : List UInt8} {o : Option Char}
    {os : List (Option Char)} (h : decodeFrom (some p) bytes = o :: os) :
    ∃ piece rest, bytes = piece ++ rest ∧ decodeFrom (some p) piece = [o] ∧ decode rest = os := by
  induction bytes generalizing p with
  | nil =>
    cases h
    exact ⟨[], [], rfl, rfl, rfl⟩
  | cons b bytes ih =>
    obtain ⟨bits, owed, low, high⟩ := p
    rw [decodeFrom_cons] at h
    cases hb : (low ≤ b && b ≤ high) with
    | true =>
      cases owed with
      | zero =>
        simp only [advance, hb, if_true, List.singleton_append, List.cons.injEq] at h
        refine ⟨[b], bytes, rfl, ?_, h.2⟩
        simp [decodeFrom, advance, hb, h.1]
      | succ owed =>
        simp only [advance, hb, if_true, List.nil_append] at h
        obtain ⟨piece, rest, rfl, hpiece, hrest⟩ := ih h
        refine ⟨b :: piece, rest, rfl, ?_, hrest⟩
        simpa [decodeFrom, advance, hb] using hpiece
    | false =>
      -- The octet is not part of the piece that it breaks off.
      simp only [advance, hb, Bool.false_eq_true, if_false, List.cons_append, List.cons.injEq] at h
      obtain ⟨rfl, hrest⟩ := h
      refine ⟨[], b :: bytes, rfl, rfl, ?_⟩
      rw [decode, decodeFrom_cons]
      exact hrest

theorem decodeFrom_pending_ne_nil (p : Pending) (bytes : List UInt8) :
    decodeFrom (some p) bytes ≠ [] := by
  induction bytes generalizing p with
  | nil => exact List.cons_ne_nil _ _
  | cons b bytes ih =>
    obtain ⟨bits, owed, low, high⟩ := p
    rw [decodeFrom_cons, advance]
    split
    · cases owed with
      | zero => exact List.cons_ne_nil _ _
      | succ owed => exact ih _
    · exact List.cons_ne_nil _ _

theorem eq_nil_of_decodeLossy {bytes : List UInt8} (h : decodeLossy bytes = []) : bytes = [] := by
  cases bytes with
  | nil => rfl
  | cons b bytes =>
    rw [decodeLossy, List.map_eq_nil_iff, decode, decodeFrom_cons, advance] at h
    rcases first_cases b with ⟨-, hb⟩ | hb | ⟨p, hb, -⟩
    · simp [hb] at h
    · simp [hb] at h
    · rw [hb] at h
      exact absurd h (decodeFrom_pending_ne_nil p bytes)

/-- The first character of a text has octets of its own. -/
theorem decode_split {bytes : List UInt8} {o : Option Char} {os : List (Option Char)}
    (h : decode bytes = o :: os) :
    ∃ piece rest, bytes = piece ++ rest ∧ piece ≠ [] ∧ decode piece = [o] ∧ decode rest = os := by
  cases bytes with
  | nil => cases h
  | cons b bytes =>
    rw [decode, decodeFrom_cons] at h
    simp only [advance] at h
    have hone {o' : Option Char} (hb : first b = ([o'], none)) :
        ∃ piece rest, b :: bytes = piece ++ rest ∧ piece ≠ [] ∧ decode piece = [o] ∧
          decode rest = os := by
      rw [hb, List.singleton_append, List.cons.injEq] at h
      refine ⟨[b], bytes, rfl, List.cons_ne_nil _ _, ?_, h.2⟩
      simp [decode, decodeFrom, advance, hb, h.1]
    rcases first_cases b with ⟨-, hb⟩ | hb | ⟨p, hb, -⟩
    · exact hone hb
    · exact hone hb
    · rw [hb] at h
      obtain ⟨piece, rest, rfl, hpiece, hrest⟩ := decodeFrom_pending_split h
      refine ⟨b :: piece, rest, rfl, List.cons_ne_nil _ _, ?_, hrest⟩
      simpa [decode, decodeFrom, advance, hb] using hpiece

theorem decodeLossy_split {bytes : List UInt8} {c : Char} {cs : List Char}
    (h : decodeLossy bytes = c :: cs) :
    ∃ piece rest, bytes = piece ++ rest ∧ piece ≠ [] ∧ decodeLossy piece = [c] ∧
      decodeLossy rest = cs := by
  rw [decodeLossy, List.map_eq_cons_iff] at h
  obtain ⟨o, os, ho, rfl, rfl⟩ := h
  obtain ⟨piece, rest, rfl, hne, hpiece, hrest⟩ := decode_split ho
  refine ⟨piece, rest, rfl, hne, ?_, ?_⟩
  · rw [decodeLossy, hpiece]
    rfl
  · rw [decodeLossy, hrest]

/-- An ASCII character is one octet. -/
theorem decodeLossy_eq_ascii {bytes : List UInt8} {c : Char} {cs : List Char}
    (h : decodeLossy bytes = c :: cs) (hc : c.toNat < 0x80) :
    ∃ b rest, bytes = b :: rest ∧ b < 0x80 ∧ Char.ofNat b.toNat = c ∧ decodeLossy rest = cs := by
  cases bytes with
  | nil => cases h
  | cons b bytes =>
    rw [decodeLossy, List.map_eq_cons_iff] at h
    obtain ⟨o, os, ho, rfl, rfl⟩ := h
    rw [decode, decodeFrom_cons, advance] at ho
    rcases first_cases b with ⟨hlt, hb⟩ | hb | ⟨p, hb, hp⟩
    · rw [hb, List.singleton_append, List.cons.injEq] at ho
      refine ⟨b, bytes, rfl, hlt, ?_, ?_⟩
      · rw [← ho.1]
        rfl
      · rw [decodeLossy, decode, ho.2]
    · rw [hb, List.singleton_append, List.cons.injEq] at ho
      rw [← ho.1] at hc
      exact absurd hc (by decide)
    · rw [hb] at ho
      exact absurd (not_ascii_of_pending hp ho) (Nat.not_le.mpr hc)

end ThreeAddress.Text
