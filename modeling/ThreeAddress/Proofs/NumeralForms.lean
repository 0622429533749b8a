import Mathlib.Data.Nat.Digits.Defs
import ThreeAddress.Proofs.Digits
import ThreeAddress.Proofs.Printing
import ThreeAddress.Proofs.Signature

namespace ThreeAddress.Numeral

/-- A character is the digit of a radix with the given value. Case does not matter. -/
def IsDigit (radix : Nat) (c : Char) (d : Nat) : Prop := d < radix ∧ c.toLower = d.digitChar

instance (radix : Nat) (c : Char) (d : Nat) : Decidable (IsDigit radix c d) :=
  inferInstanceAs (Decidable (_ ∧ _))

/-- Digits on both sides of one point. -/
inductive Pointed : List Char → Prop
  | mk {whole fraction : List Char} (hw : whole ≠ []) (hf : fraction ≠ [])
    (hws : ∀ c ∈ whole, c.isDigit = true) (hfs : ∀ c ∈ fraction, c.isDigit = true) :
    Pointed (whole ++ '.' :: fraction)

/-- What stands in front of a suffix, with the radix and the values of its digits: decimal digits,
or digits of another radix behind the mark of it. -/
inductive Body : List Char → Nat → List Nat → Prop
  | decimal {cs : List Char} {ds : List Nat} (hne : cs ≠ [])
    (h : List.Forall₂ (IsDigit 10) cs ds) : Body cs 10 ds
  | marked {x : Char} {radix : Nat} {cs : List Char} {ds : List Nat}
    (hx : (x, radix) ∈ [('x', 16), ('X', 16), ('b', 2), ('B', 2)]) (hne : cs ≠ [])
    (h : List.Forall₂ (IsDigit radix) cs ds) : Body ('0' :: x :: cs) radix ds

/-- A body and at most one suffix. -/
inductive Integer : List Char → Nat → List Nat → Prop
  | mk {body suffix : List Char} {radix : Nat} {ds : List Nat} (h : Body body radix ds)
    (hs : suffix ∈ [[], ['u'], ['U'], ['L'], ['u', 'L'], ['U', 'L']]) :
    Integer (body ++ suffix) radix ds

variable {radix d : Nat} {c : Char} {s cs : List Char} {ds : List Nat}

theorem lt_of_toLower_eq (h : c.toLower = d.digitChar) (hd : d < 16) : c.toNat < 0x80 := by
  have hchar : ∀ d : Fin 16, (Nat.digitChar d).toNat < 0x80 := by decide
  delta Char.toLower at h
  split at h
  · next hupper => exact Nat.lt_of_le_of_lt (UInt32.le_iff_toNat_le.mp hupper.2) (by decide)
  · rw [h]
    exact hchar ⟨d, hd⟩

theorem digitValue_eq_iff (hd : d < 16) : digitValue c = some d ↔ c.toLower = d.digitChar := by
  have hall : ∀ n : Fin 0x80, ∀ d : Fin 16,
      digitValue (Char.ofNat n) = some d.val ↔ (Char.ofNat n).toLower = Nat.digitChar d := by
    decide +kernel
  have hiff (hc : c.toNat < 0x80) : digitValue c = some d ↔ c.toLower = d.digitChar :=
    Text.forall_ascii (p := fun c => digitValue c = some d ↔ c.toLower = d.digitChar)
      (fun n => hall n ⟨d, hd⟩) hc
  constructor
  · intro h
    have hsome : (digit? 16 c).isSome = true := by simp [digit?, h, hd]
    exact (hiff (lt_of_isSome_digit? hsome)).mp h
  · intro h
    exact (hiff (lt_of_toLower_eq h hd)).mpr h

theorem digit?_eq_some_iff (hr : radix ≤ 16) : digit? radix c = some d ↔ IsDigit radix c d := by
  rw [digit?, Option.filter_eq_some_iff, IsDigit, decide_eq_true_eq, and_comm]
  refine and_congr_right fun hd => ?_
  exact digitValue_eq_iff (Nat.lt_of_lt_of_le hd hr)

theorem exists_digits (hr : radix ≤ 16) (h : ∀ c ∈ cs, (digit? radix c).isSome = true) :
    ∃ ds, List.Forall₂ (IsDigit radix) cs ds := by
  induction cs with
  | nil => exact ⟨[], .nil⟩
  | cons c cs ih =>
    obtain ⟨hc, hcs⟩ := List.forall_mem_cons.mp h
    obtain ⟨d, hd⟩ := Option.isSome_iff_exists.mp hc
    obtain ⟨ds, hds⟩ := ih hcs
    exact ⟨d :: ds, .cons ((digit?_eq_some_iff hr).mp hd) hds⟩

theorem isSome_digit? (hr : radix ≤ 16) (h : List.Forall₂ (IsDigit radix) cs ds) :
    ∀ c ∈ cs, (digit? radix c).isSome = true := by
  intro c hc
  obtain ⟨d, -, hd⟩ := exists_of_mem_left h hc
  rw [(digit?_eq_some_iff hr).mpr hd]
  rfl

/-- Reading from the left adds up the digits by their places. -/
theorem digitsValue_eq (hr : radix ≤ 16) (h : List.Forall₂ (IsDigit radix) cs ds) :
    digitsValue radix cs = some (Nat.ofDigits radix ds.reverse) := by
  have hfrom (v : Nat) : cs.foldlM (fun v c => (digit? radix c).map (v * radix + ·)) v =
      some (v * radix ^ cs.length + Nat.ofDigits radix ds.reverse) := by
    induction h generalizing v with
    | nil => simp
    | @cons c d cs ds hc hcs ih =>
      rw [List.foldlM_cons, (digit?_eq_some_iff hr).mpr hc, Option.map_some, Option.bind_eq_bind,
        Option.bind_some, ih, List.reverse_cons, Nat.ofDigits_append, Nat.ofDigits_singleton,
        List.length_reverse, ← hcs.length_eq, List.length_cons, Nat.pow_succ]
      congr 1
      ring
  rw [digitsValue, hfrom 0, Nat.zero_mul, Nat.zero_add]

theorem exists_pointed (h : ∃ c ∈ s.head?, c.isDigit = true) (hf : isFloat s = true)
    (hc : checkFloat (splitPoint s).1 (splitPoint s).2 = .ok ()) : Pointed s := by
  obtain ⟨hws, hfs⟩ := List.forall_mem_append.mp (digits_of_checkFloat hc)
  have hw : (splitPoint s).1 ≠ [] := by
    obtain ⟨c, hc, hdigit⟩ := h
    obtain ⟨r, rfl⟩ := List.head?_eq_some_iff.mp hc
    have hpoint : (c != '.') = true := by
      rw [bne_iff_ne]
      rintro rfl
      cases hdigit
    simp [splitPoint, hpoint]
  have hfraction : (splitPoint s).2 ≠ [] := by
    intro hnil
    simp [checkFloat, hnil] at hc
  rw [← splitPoint_append s hf]
  exact .mk hw hfraction hws hfs

theorem exists_body {body : List Char}
    (hc : checkInt (splitRadix body).1 (splitRadix body).2 = .ok ()) :
    ∃ radix ds, Body body radix ds := by
  have hne : (splitRadix body).1 ≠ [] := by
    intro hnil
    simp [checkInt, hnil] at hc
  have hdigits := digits_of_checkInt hc
  rcases splitRadix_cases body with ⟨hs, hr⟩ | ⟨x, hx, hs, hr⟩ | ⟨x, hx, hs, hr⟩
  · rw [hr] at hdigits
    obtain ⟨ds, hds⟩ := exists_digits (by decide) hdigits
    rw [hs]
    exact ⟨10, ds, .decimal hne hds⟩
  · rw [hr] at hdigits
    obtain ⟨ds, hds⟩ := exists_digits (by decide) hdigits
    rw [hs]
    exact ⟨16, ds, .marked (by rcases hx with rfl | rfl <;> simp) hne hds⟩
  · rw [hr] at hdigits
    obtain ⟨ds, hds⟩ := exists_digits (by decide) hdigits
    rw [hs]
    exact ⟨2, ds, .marked (by rcases hx with rfl | rfl <;> simp) hne hds⟩

theorem splitSuffix_mem (s : List Char) :
    (splitSuffix s).2 ∈ [[], ['u'], ['U'], ['L'], ['u', 'L'], ['U', 'L']] := by
  have hall : ∀ t ∈ suffixes, t ∈ [[], ['u'], ['U'], ['L'], ['u', 'L'], ['U', 'L']] := by decide
  unfold splitSuffix
  split
  · next t ht => exact hall t (List.mem_of_find?_eq_some ht)
  · exact List.mem_cons_self

theorem forms_of_check (h : ∃ c ∈ s.head?, c.isDigit = true) (hc : check s = .ok ()) :
    Pointed s ∨ ∃ radix ds, Integer s radix ds := by
  unfold check at hc
  split at hc
  · next hf => exact .inl (exists_pointed h hf hc)
  · obtain ⟨radix, ds, hbody⟩ := exists_body hc
    have hint := Integer.mk hbody (splitSuffix_mem s)
    rw [splitSuffix_append s] at hint
    exact .inr ⟨radix, ds, hint⟩

theorem Pointed.isFloat (h : Pointed s) : isFloat s = true := by
  obtain ⟨hw, hf, hws, hfs⟩ := h
  simp [Numeral.isFloat]

theorem Pointed.check (h : Pointed s) : check s = .ok () := by
  have hfloat := h.isFloat
  obtain @⟨whole, fraction, hw, hf, hws, hfs⟩ := h
  have hno {cs : List Char} (hcs : ∀ c ∈ cs, c.isDigit = true) : '.' ∉ cs :=
    fun hmem => absurd (hcs '.' hmem) (by decide)
  have hall := forall_bne_of_not_mem (hno hws)
  have hsplit : splitPoint (whole ++ '.' :: fraction) = (whole, fraction) := by
    simp [splitPoint, List.takeWhile_append_of_pos hall, List.dropWhile_append_of_pos hall]
  have hdigits : (whole.all Char.isDigit && fraction.all Char.isDigit) = true := by
    rw [Bool.and_eq_true, List.all_eq_true, List.all_eq_true]
    exact ⟨hws, hfs⟩
  simp only [Numeral.check, hfloat, hsplit, checkFloat, hdigits, if_true]
  rw [if_neg (by simpa using hno hfs), if_neg (by simpa using hf)]

theorem isAlphanum_of_isSome (h : (digit? radix c).isSome = true) : c.isAlphanum = true := by
  obtain ⟨d, hd⟩ := Option.isSome_iff_exists.mp h
  have hvalue : (digitValue c).isSome = true := by
    rw [(Option.filter_eq_some_iff.mp hd).1]
    rfl
  exact Text.forall_ascii (p := fun c => (digitValue c).isSome = true → c.isAlphanum = true)
    (by decide) (lt_of_isSome_digit? h) hvalue

/-- The letters of the suffixes are no digits of a radix up to 16. -/
theorem ne_suffix_of_isSome (hr : radix ≤ 16) (h : (digit? radix c).isSome = true) :
    c ≠ 'u' ∧ c ≠ 'U' ∧ c ≠ 'L' := by
  have hlarge : ∀ d ∈ digitValue 'u' :: digitValue 'U' :: [digitValue 'L'], ∃ v ∈ d, 16 ≤ v := by
    decide
  obtain ⟨d, hd⟩ := Option.isSome_iff_exists.mp h
  obtain ⟨hvalue, hlt⟩ := Option.filter_eq_some_iff.mp hd
  have hno (x : Char) (hx : ∃ v ∈ digitValue x, 16 ≤ v) : c ≠ x := by
    rintro rfl
    obtain ⟨v, hv, hle⟩ := hx
    cases hvalue.symm.trans hv
    exact absurd (of_decide_eq_true hlt) (by omega)
  simp only [List.forall_mem_cons] at hlarge
  exact ⟨hno 'u' hlarge.1, hno 'U' hlarge.2.1, hno 'L' hlarge.2.2.1⟩

/-- Taking the mark of its radix off a body leaves its digits. -/
theorem Body.splitRadix {body : List Char} (h : Body body radix ds) :
    ∃ cs, splitRadix body = (cs, radix) ∧ cs ≠ [] ∧ radix ≤ 16 ∧
      List.Forall₂ (IsDigit radix) cs ds := by
  cases h with
  | decimal hne h =>
    have hdigits : ∀ c ∈ body, c.isDigit = true := by
      intro c hc
      have hsome := isSome_digit? (by decide) h c hc
      have hlt := lt_of_isSome_digit? hsome
      rw [← Text.isDigit_octet hlt]
      exact isDigit_of_digit? (.inr rfl) hsome
    exact ⟨body, splitRadix_of_digits hdigits, hne, by decide, h⟩
  | @marked x _ cs _ hx hne h =>
    simp only [List.mem_cons, Prod.mk.injEq, List.not_mem_nil, or_false] at hx
    rcases hx with ⟨rfl, rfl⟩ | ⟨rfl, rfl⟩ | ⟨rfl, rfl⟩ | ⟨rfl, rfl⟩
    all_goals exact ⟨cs, rfl, hne, by decide, h⟩

theorem Body.chars {body : List Char} (h : Body body radix ds) :
    ∀ c ∈ body, c.isAlphanum = true ∧ c ≠ 'u' ∧ c ≠ 'U' ∧ c ≠ 'L' := by
  have hdigits {radix : Nat} {cs : List Char} (hr : radix ≤ 16)
      (h : List.Forall₂ (IsDigit radix) cs ds) (c : Char) (hc : c ∈ cs) :
      c.isAlphanum = true ∧ c ≠ 'u' ∧ c ≠ 'U' ∧ c ≠ 'L' :=
    have hsome := isSome_digit? hr h c hc
    ⟨isAlphanum_of_isSome hsome, ne_suffix_of_isSome hr hsome⟩
  cases h with
  | decimal hne h => exact hdigits (by decide) h
  | marked hx hne h =>
    simp only [List.mem_cons, Prod.mk.injEq, List.not_mem_nil, or_false] at hx
    rw [List.forall_mem_cons, List.forall_mem_cons]
    rcases hx with ⟨rfl, rfl⟩ | ⟨rfl, rfl⟩ | ⟨rfl, rfl⟩ | ⟨rfl, rfl⟩
    all_goals exact ⟨by decide, by decide, hdigits (by decide) h⟩

/-- A suffix behind a text without its letters is found whole. -/
theorem splitSuffix_append_mem {body suffix : List Char}
    (hb : ∀ c ∈ body, c ≠ 'u' ∧ c ≠ 'U' ∧ c ≠ 'L')
    (hs : suffix ∈ [[], ['u'], ['U'], ['L'], ['u', 'L'], ['U', 'L']]) :
    splitSuffix (body ++ suffix) = (body, suffix) := by
  rcases List.mem_cons.mp hs with rfl | hs
  · rw [List.append_nil]
    exact splitSuffix_of_not hb
  · have hfind : suffixes.find? (·.isSuffixOf (body ++ suffix)) = some suffix := by
      simp only [List.mem_cons, List.not_mem_nil, or_false] at hs
      -- What stands in front of a suffix of one letter is no first letter of a longer one.
      cases hrev : body.reverse with
      | nil =>
        obtain rfl := List.reverse_eq_nil_iff.mp hrev
        rcases hs with rfl | rfl | rfl | rfl | rfl <;> rfl
      | cons c rest =>
        obtain ⟨hu, hU, -⟩ := hb c (List.mem_reverse.mp (hrev ▸ List.mem_cons_self))
        have hfirst : ('u' == c) = false ∧ ('U' == c) = false := by simp [hu.symm, hU.symm]
        rcases hs with rfl | rfl | rfl | rfl | rfl
        all_goals simp [suffixes, List.find?, List.isSuffixOf, List.isPrefixOf, hrev, hfirst]
    rw [splitSuffix, hfind]
    simp

section
variable (h : Integer s radix ds)
include h

theorem Integer.isFloat : isFloat s = false := by
  obtain ⟨hbody, hs⟩ := h
  have hall : [[], ['u'], ['U'], ['L'], ['u', 'L'], ['U', 'L']].all (·.all Char.isAlphanum) =
      true := by decide
  have hsuffix := List.all_eq_true.mp (List.all_eq_true.mp hall _ hs)
  refine isFloat_of_alphanum (List.forall_mem_append.mpr ⟨?_, hsuffix⟩)
  exact fun c hc => (hbody.chars c hc).1

theorem Integer.splits :
    ∃ cs, splitRadix (splitSuffix s).1 = (cs, radix) ∧ cs ≠ [] ∧ radix ≤ 16 ∧
      List.Forall₂ (IsDigit radix) cs ds := by
  obtain ⟨hbody, hs⟩ := h
  rw [splitSuffix_append_mem (fun c hc => (hbody.chars c hc).2) hs]
  exact hbody.splitRadix

theorem Integer.check : check s = .ok () := by
  obtain ⟨cs, hsplit, hne, hr, hds⟩ := h.splits
  have hall : cs.all (fun c => (digit? radix c).isSome) = true :=
    List.all_eq_true.mpr (isSome_digit? hr hds)
  simp [Numeral.check, h.isFloat, hsplit, checkInt, hne, hall]

/-- An integer is worth what its digits add up to, unless that does not fit in 64 bits. -/
theorem Integer.value? :
    value? s = if Nat.ofDigits radix ds.reverse < 2 ^ 64 then some (Nat.ofDigits radix ds.reverse)
      else none := by
  obtain ⟨cs, hsplit, hne, hr, hds⟩ := h.splits
  have hmagnitude : magnitude? s = some (Nat.ofDigits radix ds.reverse) := by
    simp only [magnitude?, hsplit]
    exact digitsValue_eq hr hds
  rw [value?_eq h.check h.isFloat, hmagnitude, Option.filter_some]
  simp only [decide_eq_true_eq]
  rfl

end

/-- A text that starts with a digit is accepted exactly in the two forms of numeric literals. What
is accepted without a point is an integer; and whichever way its digits are read off, it has their
value if that is below 2^64, and none otherwise. -/
theorem check_accepts_forms (s : List Char) (h : ∃ c ∈ s.head?, c.isDigit = true) :
    (check s = .ok () ↔ Pointed s ∨ ∃ radix ds, Integer s radix ds) ∧
      (check s = .ok () → '.' ∉ s → ∃ radix ds, Integer s radix ds) ∧
      ∀ radix ds, Integer s radix ds →
        value? s = if Nat.ofDigits radix ds.reverse < 2 ^ 64
          then some (Nat.ofDigits radix ds.reverse) else none := by
  refine ⟨⟨forms_of_check h, ?_⟩, fun hc hp => ?_, fun radix ds hint => hint.value?⟩
  · rintro (hp | ⟨radix, ds, hint⟩)
    · exact hp.check
    · exact hint.check
  · refine (forms_of_check h hc).resolve_left fun hpointed => hp ?_
    simpa [isFloat] using hpointed.isFloat

/-- A digit of radix 16 that is the mark of radix 2 elsewhere, in front of a suffix; and the least
number that does not fit. -/
theorem check_accepts_forms_at_limit :
    (check "0xbUL".toList = .ok () ∧ Integer "0xbUL".toList 16 [11] ∧
        value? "0xbUL".toList = some 11) ∧
      check "0X10000000000000000".toList = .ok () ∧
        Integer "0X10000000000000000".toList 16 (1 :: List.replicate 16 0) ∧
        value? "0X10000000000000000".toList = none := by
  have hsmall : Integer "0xbUL".toList 16 [11] :=
    @Integer.mk ['0', 'x', 'b'] ['U', 'L'] 16 [11]
      (.marked (by decide) (by decide) (by decide)) (by decide)
  have hlarge : Integer "0X10000000000000000".toList 16 (1 :: List.replicate 16 0) :=
    @Integer.mk ('0' :: 'X' :: '1' :: List.replicate 16 '0') [] 16 (1 :: List.replicate 16 0)
      (.marked (by decide) (by decide) (by decide)) (by decide)
  obtain ⟨hforms, -, hvalue⟩ := check_accepts_forms "0xbUL".toList ⟨'0', rfl, by decide⟩
  obtain ⟨hforms', -, hvalue'⟩ :=
    check_accepts_forms "0X10000000000000000".toList ⟨'0', rfl, by decide⟩
  refine ⟨⟨hforms.mpr (.inr ⟨16, _, hsmall⟩), hsmall, ?_⟩, hforms'.mpr (.inr ⟨16, _, hlarge⟩),
    hlarge, ?_⟩
  · rw [hvalue 16 [11] hsmall]
    decide
  · rw [hvalue' 16 _ hlarge]
    decide

end ThreeAddress.Numeral
