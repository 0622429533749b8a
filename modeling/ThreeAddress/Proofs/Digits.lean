import ThreeAddress.Proofs.Layout
import ThreeAddress.Proofs.Program

namespace ThreeAddress

namespace Numeral

variable {b d n : Nat} {c : Char} {s : List Char}

theorem digitValue_digitChar (hd : d < 16) : digitValue d.digitChar = some d := by
  have hall : ∀ d : Fin 16, digitValue (Nat.digitChar d) = some d.val := by decide
  exact hall ⟨d, hd⟩

theorem digit?_digitChar (hd : d < b) (hb : b ≤ 16) : digit? b d.digitChar = some d := by
  rw [digit?, digitValue_digitChar (Nat.lt_of_lt_of_le hd hb)]
  simp [hd]

theorem exists_of_mem_toDigits (hb : 1 < b) (h : c ∈ Nat.toDigits b n) :
    ∃ d < b, c = d.digitChar := by
  induction n using Nat.strongRecOn with
  | ind n ih =>
    rw [Nat.toDigits_eq_if hb] at h
    split at h
    · next hn => exact ⟨n, hn, List.mem_singleton.mp h⟩
    · next hn =>
      have hlt : n / b < n := Nat.div_lt_self (by omega) hb
      rcases List.mem_append.mp h with h | h
      · exact ih (n / b) hlt h
      · exact ⟨n % b, Nat.mod_lt n (by omega), List.mem_singleton.mp h⟩

/-- The digits of a number have its value. -/
theorem digitsValue_toDigits (hb : 1 < b) (hb' : b ≤ 16) (n : Nat) :
    digitsValue b (Nat.toDigits b n) = some n := by
  induction n using Nat.strongRecOn with
  | ind n ih =>
    rw [Nat.toDigits_eq_if hb]
    split
    · next hn => simp [digitsValue, digit?_digitChar hn hb']
    · next hn =>
      have hlt : n / b < n := Nat.div_lt_self (by omega) hb
      have hmod : n % b < b := Nat.mod_lt n (by omega)
      have hvalue := ih (n / b) hlt
      rw [digitsValue] at hvalue ⊢
      rw [List.foldlM_append, hvalue]
      simp [digit?_digitChar hmod hb', Nat.div_add_mod']

theorem checkInt_toDigits (hb : 1 < b) (hb' : b ≤ 16) (n : Nat) :
    checkInt (Nat.toDigits b n) b = .ok () := by
  have hne : (Nat.toDigits b n).isEmpty = false := by simp [Nat.toDigits_ne_nil]
  have hall : ((Nat.toDigits b n).all fun c => (digit? b c).isSome) = true := by
    rw [List.all_eq_true]
    intro c hc
    obtain ⟨d, hd, rfl⟩ := exists_of_mem_toDigits hb hc
    rw [digit?_digitChar hd hb']
    rfl
  simp [checkInt, hne, hall]

/-- A text without the letters of a suffix has none. -/
theorem splitSuffix_of_not (h : ∀ c ∈ s, c ≠ 'u' ∧ c ≠ 'U' ∧ c ≠ 'L') :
    splitSuffix s = (s, []) := by
  have hnone : suffixes.find? (·.isSuffixOf s) = none := by
    rw [List.find?_eq_none]
    intro t ht hsuffix
    obtain ⟨front, rfl⟩ := List.isSuffixOf_iff_suffix.mp hsuffix
    simp only [suffixes, List.mem_cons, List.not_mem_nil, or_false] at ht
    rcases ht with rfl | rfl | rfl | rfl | rfl <;> simp [or_imp, forall_and] at h
  rw [splitSuffix, hnone]

theorem splitSuffix_unsigned (s : List Char) : splitSuffix (s ++ ['u']) = (s, ['u']) := by
  have hfind : suffixes.find? (·.isSuffixOf (s ++ ['u'])) = some ['u'] := by
    simp [suffixes, List.find?, List.isSuffixOf, List.isPrefixOf]
  rw [splitSuffix, hfind]
  simp

/-- Decimal digits have no mark of a radix. -/
theorem splitRadix_of_digits (h : ∀ c ∈ s, c.isDigit = true) : splitRadix s = (s, 10) := by
  unfold splitRadix
  split
  all_goals first | rfl | simp at h

theorem isFloat_of_alphanum (h : ∀ c ∈ s, c.isAlphanum = true) : isFloat s = false := by
  rw [isFloat, List.contains_eq_mem, decide_eq_false_iff_not]
  intro hmem
  exact absurd (h '.' hmem) (by decide)

/-- A text that reads as a number, with the number. -/
structure Writes (s : List Char) (n : Nat) : Prop where
  number : Text.Number s
  value : magnitude? s = some n

/-- What makes a text write a number: how it begins and goes on, and which digits are left when its
marks are taken off. -/
theorem writes_of_digits (hfirst : ∃ c ∈ s.head?, c.isDigit = true)
    (hall : ∀ c ∈ s, c.isAlphanum = true)
    (hgoesOn : ∀ c ∈ s, Run.continuesNumber (Text.octets s) (Text.octet c) = true)
    (hshort : s.length ≤ runLimit) (hb : 1 < b) (hb' : b ≤ 16)
    (hdigits : splitRadix (splitSuffix s).1 = (Nat.toDigits b n, b)) : Writes s n where
  number := by
    refine ⟨hfirst, hall, hgoesOn, ?_, hshort⟩
    simp [check, isFloat_of_alphanum hall, hdigits, checkInt_toDigits hb hb']
  value := by
    simp only [magnitude?, hdigits]
    exact digitsValue_toDigits hb hb' n

theorem length_toDigits_le (hb : 1 < b) (hn : n < UInt64.size) : (Nat.toDigits b n).length ≤ 64 := by
  rw [Nat.length_toDigits_le_iff hb (by decide)]
  exact Nat.lt_of_lt_of_le hn (Nat.pow_le_pow_left hb 64)

theorem isDigit_of_mem (hb : 1 < b) (hb' : b ≤ 10) : ∀ c ∈ Nat.toDigits b n, c.isDigit = true :=
  fun _ hc => Nat.isDigit_of_mem_toDigits (Nat.lt_of_succ_lt hb) hb' hc

theorem isAlphanum_of_isDigit (h : c.isDigit = true) : c.isAlphanum = true := by
  rw [Char.isAlphanum, h, Bool.or_true]

theorem goesOn_of_isDigit (h : c.isDigit = true) (text : List UInt8) :
    Run.continuesNumber text (Text.octet c) = true := by
  have hc := Text.lt_of_isAlphanum (isAlphanum_of_isDigit h)
  rw [Run.continuesNumber, Text.isDigit_octet hc, h]
  rfl

theorem no_suffix_of_isDigit (h : c.isDigit = true) : c ≠ 'u' ∧ c ≠ 'U' ∧ c ≠ 'L' := by
  refine ⟨?_, ?_, ?_⟩ <;> rintro rfl <;> cases h

theorem isHexDigit_of_mem (h : c ∈ Nat.toDigits 16 n) :
    c.isAlphanum = true ∧ Run.isHexDigit (Text.octet c) = true ∧ c ≠ 'u' ∧ c ≠ 'U' ∧ c ≠ 'L' := by
  obtain ⟨d, hd, rfl⟩ := exists_of_mem_toDigits (by decide) h
  have hall : ∀ d : Fin 16, (Nat.digitChar d).isAlphanum = true ∧
      Run.isHexDigit (Text.octet (Nat.digitChar d)) = true ∧ Nat.digitChar d ≠ 'u' ∧
      Nat.digitChar d ≠ 'U' ∧ Nat.digitChar d ≠ 'L' := by
    decide
  exact hall ⟨d, hd⟩

theorem exists_head_toDigits (n : Nat) (s : List Char) :
    ∃ c ∈ (Nat.toDigits 10 n ++ s).head?, c.isDigit = true := by
  obtain ⟨c, cs, hcs⟩ := List.exists_cons_of_ne_nil (Nat.toDigits_ne_nil (n := n) (b := 10))
  have hmem : c ∈ Nat.toDigits 10 n := hcs ▸ List.mem_cons_self
  refine ⟨c, by rw [hcs]; rfl, isDigit_of_mem (by decide) (by decide) c hmem⟩

section
variable (hn : n < UInt64.size)
include hn

theorem writes_decimal : Writes (Nat.toDigits 10 n) n := by
  have hdigit := isDigit_of_mem (n := n) (b := 10) (by decide) (by decide)
  have hlength := length_toDigits_le (b := 10) (by decide) hn
  refine writes_of_digits ?_ ?_ ?_ ?_ (b := 10) (by decide) (by decide) ?_
  · simpa using exists_head_toDigits n []
  · exact fun c hc => isAlphanum_of_isDigit (hdigit c hc)
  · exact fun c hc => goesOn_of_isDigit (hdigit c hc) _
  · exact Nat.le_trans hlength (by decide)
  · rw [splitSuffix_of_not fun c hc => no_suffix_of_isDigit (hdigit c hc),
      splitRadix_of_digits hdigit]

theorem writes_unsigned : Writes (Nat.toDigits 10 n ++ ['u']) n := by
  have hdigit := isDigit_of_mem (n := n) (b := 10) (by decide) (by decide)
  have hlength := length_toDigits_le (b := 10) (by decide) hn
  refine writes_of_digits (exists_head_toDigits n _) ?_ ?_ ?_ (b := 10) (by decide) (by decide) ?_
  · refine List.forall_mem_append.mpr ⟨fun c hc => isAlphanum_of_isDigit (hdigit c hc), ?_⟩
    exact List.forall_mem_singleton.mpr (by decide)
  · refine List.forall_mem_append.mpr ⟨fun c hc => goesOn_of_isDigit (hdigit c hc) _, ?_⟩
    have hmarker : Run.isMarker (Text.octet 'u') = true := by decide
    exact List.forall_mem_singleton.mpr (by simp [Run.continuesNumber, hmarker])
  · rw [List.length_append]
    exact Nat.le_trans (Nat.add_le_add_right hlength 1) (by decide)
  · rw [splitSuffix_unsigned, splitRadix_of_digits hdigit]

theorem writes_binary : Writes ('0' :: 'b' :: Nat.toDigits 2 n) n := by
  have hdigit := isDigit_of_mem (n := n) (b := 2) (by decide) (by decide)
  have hlength := length_toDigits_le (b := 2) (by decide) hn
  refine writes_of_digits ⟨'0', rfl, by decide⟩ ?_ ?_ ?_ (b := 2) (by decide) (by decide) ?_
  · simp only [List.forall_mem_cons]
    exact ⟨by decide, by decide, fun c hc => isAlphanum_of_isDigit (hdigit c hc)⟩
  · simp only [List.forall_mem_cons]
    exact ⟨rfl, rfl, fun c hc => goesOn_of_isDigit (hdigit c hc) _⟩
  · exact Nat.le_trans (Nat.add_le_add_right hlength 2) (by decide)
  · rw [splitSuffix_of_not]
    · rfl
    · simp only [List.forall_mem_cons]
      exact ⟨by decide, by decide, fun c hc => no_suffix_of_isDigit (hdigit c hc)⟩

theorem writes_hex : Writes ('0' :: 'x' :: Nat.toDigits 16 n) n := by
  have hlength := length_toDigits_le (b := 16) (by decide) hn
  refine writes_of_digits ⟨'0', rfl, by decide⟩ ?_ ?_ ?_ (b := 16) (by decide) (by decide) ?_
  · simp only [List.forall_mem_cons]
    exact ⟨by decide, by decide, fun c hc => (isHexDigit_of_mem hc).1⟩
  · simp only [List.forall_mem_cons]
    refine ⟨rfl, rfl, fun c hc => ?_⟩
    have hmark : Run.isHex (Text.octets ('0' :: 'x' :: Nat.toDigits 16 n)) = true := rfl
    simp only [Run.continuesNumber, hmark, (isHexDigit_of_mem hc).2.1, Bool.and_self, Bool.or_true]
  · exact Nat.le_trans (Nat.add_le_add_right hlength 2) (by decide)
  · rw [splitSuffix_of_not]
    · rfl
    · simp only [List.forall_mem_cons]
      exact ⟨by decide, by decide, fun c hc => (isHexDigit_of_mem hc).2.2⟩

end

/-- A token that writes a number is in range. -/
theorem Writes.inRange (h : Writes s n) (hn : n < UInt64.size) :
    (Token.bare .number (String.ofList s)).InRange := by
  intro _ _
  refine ⟨n, hn, ?_⟩
  rw [Token.bare, String.toList_ofList]
  exact h.value

theorem Writes.ofLiteral? (h : Writes s n) :
    Ty.ofLiteral? (.bare .number (String.ofList s)) = some .int := by
  simp [Ty.ofLiteral?, Token.bare, isFloat_of_alphanum h.number.all]

end Numeral

end ThreeAddress
