import Mathlib.Data.List.TakeWhile
import ThreeAddress.Proofs.Results
import ThreeAddress.Token.Stream

namespace ThreeAddress

/-- Newlines, and bytes behind the last of them. -/
def Blank.of (bytes : List UInt8) : Blank :=
  ⟨bytes.count Run.newline, (bytes.reverse.takeWhile (· != Run.newline)).length⟩

/-- The place of a byte that has the given bytes in front of it. -/
def Site.behind (file : String) (before : List UInt8) : Site :=
  ⟨file, 1 + before.count Run.newline,
    1 + (before.reverse.takeWhile (· != Run.newline)).length⟩

namespace Blank

theorem of_append_of_not_mem (before : List UInt8) {bytes : List UInt8} (h : Run.newline ∉ bytes) :
    of (before ++ bytes) = ⟨(of before).newlines, (of before).indent + bytes.length⟩ := by
  have hall : ∀ b ∈ bytes.reverse, (b != Run.newline) = true :=
    forall_bne_of_not_mem fun hmem => h (List.mem_reverse.mp hmem)
  simp only [of, List.count_append, List.count_eq_zero.mpr h, List.reverse_append,
    List.takeWhile_append_of_pos hall, List.length_append, List.length_reverse, Nat.add_zero,
    Nat.add_comm]

theorem of_append_of_mem (before : List UInt8) {bytes : List UInt8} (h : Run.newline ∈ bytes) :
    of (before ++ bytes) = ⟨(of before).newlines + (of bytes).newlines, (of bytes).indent⟩ := by
  have hshort : (bytes.reverse.takeWhile (· != Run.newline)).length ≠ bytes.reverse.length := by
    intro hlength
    have hall := List.takeWhile_eq_self_iff.mp
      ((List.takeWhile_prefix _).eq_of_length hlength)
    have := hall _ (List.mem_reverse.mpr h)
    simp at this
  simp only [of, List.count_append, List.reverse_append, List.takeWhile_append, if_neg hshort]

end Blank

namespace Site

theorem behind_append (file : String) (before : List UInt8) {bytes : List UInt8}
    (h : Run.newline ∉ bytes) :
    behind file (before ++ bytes) =
      { behind file before with column := (behind file before).column + bytes.length } := by
  have hof := Blank.of_append_of_not_mem before h
  have hline := congrArg Blank.newlines hof
  have hcolumn := congrArg Blank.indent hof
  simp only [Blank.of] at hline hcolumn
  simp only [behind, hline, hcolumn, Nat.add_assoc]

theorem behind_append_of_mem (file : String) (before : List UInt8) {bytes : List UInt8}
    (h : Run.newline ∈ bytes) :
    behind file (before ++ bytes) =
      ⟨file, (behind file before).line + (Blank.of bytes).newlines,
        1 + (Blank.of bytes).indent⟩ := by
  have hof := Blank.of_append_of_mem before h
  have hline := congrArg Blank.newlines hof
  have hcolumn := congrArg Blank.indent hof
  simp only [Blank.of] at hline hcolumn
  simp only [behind, Blank.of, hline, hcolumn, Nat.add_assoc]

end Site

namespace Run

theorem isBlank_newline : isBlank newline = true := by decide

/-- Skipping counts the blanks in front. -/
theorem skipBlankFrom_of (passed input : List UInt8) :
    skipBlankFrom (.of passed) input =
      (.of (passed ++ input.takeWhile isBlank), input.dropWhile isBlank) := by
  induction input generalizing passed with
  | nil => simp [skipBlankFrom]
  | cons b rest ih =>
    by_cases hn : b = newline
    · subst hn
      have hof : Blank.of (passed ++ [newline]) = ⟨(Blank.of passed).newlines + 1, 0⟩ :=
        Blank.of_append_of_mem passed (List.mem_singleton_self _)
      have hrest := ih (passed ++ [newline])
      rw [hof] at hrest
      simp [skipBlankFrom, hrest, isBlank_newline]
    · by_cases hb : isBlank b = true
      · have hof : Blank.of (passed ++ [b]) =
            ⟨(Blank.of passed).newlines, (Blank.of passed).indent + 1⟩ :=
          Blank.of_append_of_not_mem passed (by simpa using Ne.symm hn)
        have hrest := ih (passed ++ [b])
        rw [hof] at hrest
        simp [skipBlankFrom, hn, hb, hrest]
      · simp [skipBlankFrom, hn, hb]

theorem skipBlank_eq (input : List UInt8) :
    skipBlank input = (.of (input.takeWhile isBlank), input.dropWhile isBlank) :=
  skipBlankFrom_of [] input

/-- A text whose bytes all satisfy a test, in front of a byte that does not. -/
structure Maximal (p : UInt8 → Bool) (text after : List UInt8) : Prop where
  all : ∀ b ∈ text, p b = true
  stop : ∀ b ∈ after.head?, p b = false

theorem maximal_takeWhile (p : UInt8 → Bool) (input : List UInt8) :
    Maximal p (input.takeWhile p) (input.dropWhile p) where
  all := List.all_eq_true.mp List.all_takeWhile
  stop := by
    intro b hb
    have := List.head?_dropWhile_not p input
    rwa [hb] at this

/-- Whether a byte goes on with a number that is written so far. -/
def continuesNumber (text : List UInt8) (b : UInt8) : Bool :=
  isDigit b || isMarker b || (isHex text && isHexDigit b)

/-- A run of a class in front of the bytes that it does not reach. -/
inductive Is : RunClass → (text after : List UInt8) → Prop
  | word {text after : List UInt8} (hf : ∃ b ∈ text.head?, isLetter b = true)
    (hm : Maximal isAlnum text after) : Is .word text after
  | number {text after : List UInt8} (hf : ∃ b ∈ text.head?, isDigit b = true)
    (hm : Maximal (continuesNumber text) text after) : Is .number text after
  | symbol {text after : List UInt8} (hm : ∀ b ∈ text, isAlnum b = false ∧ isBlank b = false)
    (hstop : ∀ b ∈ after.head?, isAlnum b = true ∨ isBlank b = true ∨ [slash, slash] <:+ text) :
    Is .symbol text after

/-- The mark of radix 16 is part of the number. -/
theorem isHex_takeWhile (input : List UInt8) (p : UInt8 → Bool)
    (hp : ∀ b, isDigit b || isMarker b → p b = true) :
    isHex (input.takeWhile p) = isHex input := by
  match input with
  | [] => rfl
  | [b] =>
    by_cases hb : p b = true
    · simp [hb]
    · simp [hb, isHex]
  | a :: b :: rest =>
    by_cases hmark : isHex (a :: b :: rest) = true
    · have ha : p a = true := by
        refine hp a ?_
        simp only [isHex, Bool.and_eq_true, beq_iff_eq] at hmark
        rw [hmark.1]
        decide
      have hb : p b = true := by
        refine hp b ?_
        simp only [isHex, Bool.and_eq_true, Bool.or_eq_true, beq_iff_eq] at hmark
        rcases hmark.2 with rfl | rfl <;> decide
      rw [List.takeWhile_cons_of_pos ha, List.takeWhile_cons_of_pos hb]
      rfl
    · rw [Bool.not_eq_true] at hmark
      rw [hmark]
      cases ha : p a with
      | false => simp [ha, isHex]
      | true =>
        cases hb : p b with
        | false => simp [ha, hb, isHex]
        | true =>
          rw [List.takeWhile_cons_of_pos ha, List.takeWhile_cons_of_pos hb]
          exact hmark

theorem symbolLength_add (afterSlash : Bool) (n : Nat) (input : List UInt8) :
    symbolLength afterSlash n input = n + symbolLength afterSlash 0 input := by
  induction input generalizing afterSlash n with
  | nil => simp [symbolLength]
  | cons b rest ih =>
    simp only [symbolLength]
    rw [ih _ (n + 1), ih _ (0 + 1)]
    split
    · rfl
    · split
      · omega
      · omega

/-- A run of symbols, behind a slash or not. -/
theorem exists_symbol (afterSlash : Bool) (input : List UInt8) :
    ∃ text after, input = text ++ after ∧ text.length = symbolLength afterSlash 0 input ∧
      (∀ b ∈ text, isAlnum b = false ∧ isBlank b = false) ∧
      ∀ b ∈ after.head?, isAlnum b = true ∨ isBlank b = true ∨
        [slash, slash] <:+ (if afterSlash then [slash] else []) ++ text := by
  induction input generalizing afterSlash with
  | nil => exact ⟨[], [], rfl, rfl, List.forall_mem_nil _, nofun⟩
  | cons b rest ih =>
    rw [symbolLength]
    split
    · next hb =>
      refine ⟨[], b :: rest, rfl, rfl, List.forall_mem_nil _, ?_⟩
      intro c hc
      obtain rfl : b = c := Option.some.inj hc
      rw [Bool.or_eq_true] at hb
      exact hb.elim .inl (fun hb => .inr (.inl hb))
    · next hb =>
      rw [Bool.or_eq_true, not_or, Bool.not_eq_true, Bool.not_eq_true] at hb
      split
      · next hslash =>
        rw [Bool.and_eq_true, beq_iff_eq] at hslash
        obtain ⟨rfl, rfl⟩ := hslash
        refine ⟨[slash], rest, rfl, rfl, List.forall_mem_singleton.mpr hb, ?_⟩
        exact fun c _ => .inr (.inr (List.suffix_refl _))
      · next hslash =>
        obtain ⟨text, after, rfl, hlength, hall, hstop⟩ := ih (b == slash)
        refine ⟨b :: text, after, rfl, ?_, List.forall_mem_cons.mpr ⟨hb, hall⟩, ?_⟩
        · rw [symbolLength_add, List.length_cons, hlength]
          omega
        · intro c hc
          refine (hstop c hc).imp_right (Or.imp_right fun hsuffix => ?_)
          refine hsuffix.trans ?_
          by_cases hb : b = slash
          · subst hb
            exact List.suffix_append _ _
          · have : (b == slash) = false := by simpa using hb
            rw [this]
            exact ⟨(if afterSlash then [slash] else []) ++ [b], by simp⟩

theorem length_of_number {b : UInt8} (h : classify b = .number) (more : List UInt8) :
    length (b :: more) = ((b :: more).takeWhile (continuesNumber (b :: more))).length := by
  simp only [length, h]
  rfl

/-- The first run of an input. -/
theorem exists_run (b : UInt8) (more : List UInt8) :
    ∃ text after, b :: more = text ++ after ∧ text.length = length (b :: more) ∧
      Is (classify b) text after := by
  by_cases hl : isLetter b = true
  · have hclass : classify b = .word := by simp [classify, hl]
    have hpos : isAlnum b = true := by simp [isAlnum, hl]
    have hf : ∃ c ∈ ((b :: more).takeWhile isAlnum).head?, isLetter c = true :=
      ⟨b, by simp [hpos], hl⟩
    refine ⟨(b :: more).takeWhile isAlnum, (b :: more).dropWhile isAlnum,
      List.takeWhile_append_dropWhile.symm, ?_, ?_⟩
    · simp only [length, hclass]
    · rw [hclass]
      exact .word hf (maximal_takeWhile isAlnum (b :: more))
  · by_cases hd : isDigit b = true
    · have hclass : classify b = .number := by simp [classify, hl, hd]
      have hpos : continuesNumber (b :: more) b = true := by simp [continuesNumber, hd]
      have hf : ∃ c ∈ ((b :: more).takeWhile (continuesNumber (b :: more))).head?,
          isDigit c = true := ⟨b, by simp [hpos], hd⟩
      have hhex := isHex_takeWhile (b :: more) (continuesNumber (b :: more)) fun c hc => by
        simp only [continuesNumber, hc, Bool.true_or]
      have heq : continuesNumber ((b :: more).takeWhile (continuesNumber (b :: more))) =
          continuesNumber (b :: more) := by
        funext c
        rw [continuesNumber, hhex]
        rfl
      have hmax := maximal_takeWhile (continuesNumber (b :: more)) (b :: more)
      refine ⟨(b :: more).takeWhile (continuesNumber (b :: more)),
        (b :: more).dropWhile (continuesNumber (b :: more)),
        List.takeWhile_append_dropWhile.symm, ?_, ?_⟩
      · rw [length_of_number hclass]
      · rw [hclass]
        exact .number hf (heq.symm ▸ hmax)
    · have hclass : classify b = .symbol := by simp [classify, hl, hd]
      obtain ⟨text, after, hsplit, hlength, hall, hstop⟩ := exists_symbol false (b :: more)
      refine ⟨text, after, hsplit, ?_, ?_⟩
      · simp only [length, hclass, hlength]
      · rw [hclass]
        exact .symbol hall (by simpa using hstop)

theorem length_le (b : UInt8) (more : List UInt8) : length (b :: more) ≤ (b :: more).length := by
  obtain ⟨text, after, hsplit, hlength, -⟩ := exists_run b more
  rw [← hlength, hsplit, List.length_append]
  exact Nat.le_add_right _ _

section Newline
variable {ext : List UInt8} (hext : ∀ b ∈ ext.head?, b = newline)
include hext

theorem takeWhile_append_of_newline {p : UInt8 → Bool} (hp : p newline = false)
    (input : List UInt8) : (input ++ ext).takeWhile p = input.takeWhile p := by
  have hnil : ext.takeWhile p = [] := by
    cases ext with
    | nil => rfl
    | cons b ext =>
      obtain rfl : b = newline := hext b rfl
      simp [hp]
  rw [List.takeWhile_append, hnil, List.append_nil]
  split
  · next hall => exact ((List.takeWhile_prefix p).eq_of_length hall).symm
  · rfl

theorem dropWhile_append_of_newline {p : UInt8 → Bool} (hp : p newline = false)
    (input : List UInt8) : (input ++ ext).dropWhile p = input.dropWhile p ++ ext := by
  have hself : ext.dropWhile p = ext := by
    cases ext with
    | nil => rfl
    | cons b ext =>
      obtain rfl : b = newline := hext b rfl
      simp [hp]
  rw [List.dropWhile_append, hself]
  split
  · next hnil => rw [List.isEmpty_iff.mp hnil, List.nil_append]
  · rfl

theorem isHex_append_of_newline (b : UInt8) (more : List UInt8) :
    isHex (b :: more ++ ext) = isHex (b :: more) := by
  cases more with
  | cons b' more => rfl
  | nil =>
    cases ext with
    | nil => rfl
    | cons b' ext =>
      obtain rfl : b' = newline := hext b' rfl
      simp [isHex, newline]

theorem symbolLength_append_of_newline (afterSlash : Bool) (n : Nat) (input : List UInt8) :
    symbolLength afterSlash n (input ++ ext) = symbolLength afterSlash n input := by
  induction input generalizing afterSlash n with
  | nil =>
    cases ext with
    | nil => rfl
    | cons b ext =>
      obtain rfl : b = newline := hext b rfl
      simp [symbolLength, isBlank_newline]
  | cons b input ih => simp only [List.cons_append, symbolLength, ih]

theorem length_append_of_newline (b : UInt8) (more : List UInt8) :
    length (b :: more ++ ext) = length (b :: more) := by
  have hnumber : continuesNumber (b :: more ++ ext) = continuesNumber (b :: more) := by
    funext c
    rw [continuesNumber, isHex_append_of_newline hext]
    rfl
  have hstop : continuesNumber (b :: more) newline = false := by
    simp only [continuesNumber]
    cases isHex (b :: more) <;> decide
  cases hclass : classify b with
  | word =>
    have htake := takeWhile_append_of_newline hext (by decide : isAlnum newline = false) (b :: more)
    simp only [List.cons_append] at htake
    simp only [List.cons_append, length, hclass, htake]
  | number =>
    have htake := takeWhile_append_of_newline hext hstop (b :: more)
    have hlength := length_of_number hclass (more ++ ext)
    rw [← List.cons_append, hnumber, htake] at hlength
    rw [hlength, length_of_number hclass]
  | symbol =>
    have hsymbol := symbolLength_append_of_newline hext false 0 (b :: more)
    simp only [List.cons_append] at hsymbol
    simp only [List.cons_append, length, hclass, hsymbol]

end Newline

end Run

namespace Cursor

variable {c : Cursor}

theorem next_of_atEnd (h : c.atEnd = true) : c.next = (.ok none, c) := by
  simp [next, h]

theorem next_of_blank (hw : c.broken = none) (h : c.atEnd = false)
    (hrest : c.rest.dropWhile Run.isBlank = []) :
    c.next = (.ok none, ⟨[], none, true, .of c.rest⟩) := by
  have hall : c.rest.takeWhile Run.isBlank = c.rest := by
    have := List.takeWhile_append_dropWhile (p := Run.isBlank) (l := c.rest)
    rwa [hrest, List.append_nil] at this
  simp [next, h, Run.skipBlank_eq, hrest, hw, hall]

theorem next_of_short (hw : c.broken = none) (h : c.atEnd = false) {b : UInt8} {more : List UInt8}
    (hrest : c.rest.dropWhile Run.isBlank = b :: more)
    (hshort : Run.length (b :: more) ≤ runLimit) :
    c.next = (.ok (some ⟨Run.classify b, (b :: more).take (Run.length (b :: more)),
        .of (c.rest.takeWhile Run.isBlank)⟩),
      ⟨(b :: more).drop (Run.length (b :: more)), none,
        ((b :: more).drop (Run.length (b :: more))).isEmpty, c.tail⟩) := by
  simp only [next, h, Run.skipBlank_eq, hrest, Nat.not_lt.mpr hshort, hw]
  cases (b :: more).drop (Run.length (b :: more)) <;> simp

theorem next_of_long (h : c.atEnd = false) {b : UInt8} {more : List UInt8}
    (hrest : c.rest.dropWhile Run.isBlank = b :: more) (hlong : runLimit < Run.length (b :: more)) :
    ∃ c', c.next = (.error .tooLong, c') :=
  ⟨_, by simp only [next, h, Run.skipBlank_eq, hrest, hlong]; rfl⟩

/-- A run that is read, and what is left behind it. A source that breaks off behind a run does not
give the run. -/
theorem next_eq_run {c' : Cursor} {r : Run} (h : c.next = (.ok (some r), c')) :
    c.atEnd = false ∧ ∃ b more, c.rest.dropWhile Run.isBlank = b :: more ∧
      Run.length (b :: more) ≤ runLimit ∧
      r = ⟨Run.classify b, (b :: more).take (Run.length (b :: more)),
        .of (c.rest.takeWhile Run.isBlank)⟩ ∧
      c' = ⟨(b :: more).drop (Run.length (b :: more)), c.broken,
        ((b :: more).drop (Run.length (b :: more))).isEmpty, c.tail⟩ ∧
      (c'.rest = [] → c.broken = none) := by
  cases hend : c.atEnd with
  | true =>
    rw [next_of_atEnd hend] at h
    cases h
  | false =>
    refine ⟨rfl, ?_⟩
    simp only [next, hend, Run.skipBlank_eq, Bool.false_eq_true, if_false] at h
    cases hdrop : c.rest.dropWhile Run.isBlank with
    | nil =>
      simp only [hdrop] at h
      split at h <;> cases h
    | cons b more =>
      simp only [hdrop] at h
      refine ⟨b, more, rfl, ?_⟩
      split at h
      · cases h
      · next hshort =>
        refine ⟨Nat.not_lt.mp hshort, ?_⟩
        cases hrest : (b :: more).drop (Run.length (b :: more)) with
        | nil =>
          simp only [hrest, List.isEmpty_nil, if_true] at h
          split at h
          · cases h
          · next hw =>
            cases h
            exact ⟨rfl, by rw [hw]; rfl, fun _ => hw⟩
        | cons b' rest =>
          simp only [hrest, List.isEmpty_cons, Bool.false_eq_true, if_false] at h
          cases h
          exact ⟨rfl, rfl, nofun⟩

theorem skipLine_eq (hw : c.broken = none) :
    c.skipLine = (.ok (), { c with
      rest := c.rest.dropWhile (· != Run.newline)
      atEnd := (c.rest.dropWhile (· != Run.newline)).isEmpty || c.atEnd }) := by
  simp only [skipLine, hw]
  cases c.rest.dropWhile (· != Run.newline) <;> simp

end Cursor

end ThreeAddress
