import ThreeAddress.Proofs.Likeness
import ThreeAddress.Proofs.Tiling

namespace ThreeAddress

/-- A token that stands in no source. -/
def Token.bare (kind : TokenKind) (lexeme : String) : Token := ⟨kind, lexeme, ⟨"", 0, 0⟩⟩

namespace Text

/-- The octet of an ASCII character. -/
def octet (c : Char) : UInt8 := .ofNat c.toNat

def octets (cs : List Char) : List UInt8 := cs.map octet

@[simp] theorem octets_nil : octets [] = [] := rfl

@[simp] theorem octets_cons (c : Char) (cs : List Char) : octets (c :: cs) = octet c :: octets cs :=
  rfl

@[simp] theorem octets_append (cs ds : List Char) : octets (cs ++ ds) = octets cs ++ octets ds :=
  List.map_append

@[simp] theorem length_octets (cs : List Char) : (octets cs).length = cs.length :=
  List.length_map octet

@[simp] theorem head?_octets (cs : List Char) : (octets cs).head? = cs.head?.map octet :=
  List.head?_map

variable {c d : Char} {cs : List Char}

theorem toNat_octet (hc : c.toNat < 0x80) : (octet c).toNat = c.toNat := by
  rw [octet, UInt8.toNat_ofNat']
  omega

theorem ofNat_octet (hc : c.toNat < 0x80) : Char.ofNat (octet c).toNat = c := by
  rw [toNat_octet hc, Char.ofNat_toNat]

theorem octet_lt (hc : c.toNat < 0x80) : octet c < 0x80 := by
  rw [UInt8.lt_iff_toNat_lt, toNat_octet hc]
  exact hc

theorem ascii_octets (h : ∀ c ∈ cs, c.toNat < 0x80) : ascii (octets cs) = cs := by
  have hid : cs.map (fun c => Char.ofNat (octet c).toNat) = cs.map id :=
    List.map_congr_left fun c hc => ofNat_octet (h c hc)
  rwa [List.map_id, ← Function.comp_def (fun b : UInt8 => Char.ofNat b.toNat), ← List.map_map] at hid

theorem lt_of_mem_octets (h : ∀ c ∈ cs, c.toNat < 0x80) : ∀ b ∈ octets cs, b < 0x80 := by
  rw [octets, List.forall_mem_map]
  exact fun c hc => octet_lt (h c hc)

theorem decodeLossy_octets (h : ∀ c ∈ cs, c.toNat < 0x80) : decodeLossy (octets cs) = cs := by
  rw [decodeLossy_ascii _ (lt_of_mem_octets h), ascii_octets h]

/-- ASCII characters take an octet each. -/
theorem toUTF8_ofList (h : ∀ c ∈ cs, c.toNat < 0x80) :
    (String.ofList cs).toUTF8.toList = octets cs := by
  have hencode := encode_ascii (lt_of_mem_octets h)
  rwa [ascii_octets h, ← toList_toUTF8_ofList] at hencode

/-- What is decided for every ASCII character. -/
theorem forall_ascii {p : Char → Prop} (h : ∀ n : Fin 0x80, p (Char.ofNat n)) (hc : c.toNat < 0x80) :
    p c := by
  have := h ⟨c.toNat, hc⟩
  rwa [Char.ofNat_toNat] at this

theorem isLetter_octet (hc : c.toNat < 0x80) : Run.isLetter (octet c) = c.isAlpha :=
  forall_ascii (p := fun c => Run.isLetter (octet c) = c.isAlpha) (by decide) hc

theorem isDigit_octet (hc : c.toNat < 0x80) : Run.isDigit (octet c) = c.isDigit :=
  forall_ascii (p := fun c => Run.isDigit (octet c) = c.isDigit) (by decide) hc

theorem isAlnum_octet (hc : c.toNat < 0x80) : Run.isAlnum (octet c) = c.isAlphanum := by
  rw [Run.isAlnum, isLetter_octet hc, isDigit_octet hc, Char.isAlphanum]

theorem lt_of_isAlphanum (h : c.isAlphanum = true) : c.toNat < 0x80 := by
  delta Char.isAlphanum Char.isAlpha Char.isUpper Char.isLower Char.isDigit at h
  simp [UInt32.le_iff_toNat_le] at h
  omega

/-- A text that reads as one word. -/
structure Word (cs : List Char) : Prop where
  first : ∃ c ∈ cs.head?, c.isAlpha = true
  all : ∀ c ∈ cs, c.isAlphanum = true
  short : cs.length ≤ runLimit

/-- A text that reads as one number. -/
structure Number (cs : List Char) : Prop where
  first : ∃ c ∈ cs.head?, c.isDigit = true
  all : ∀ c ∈ cs, c.isAlphanum = true
  goesOn : ∀ c ∈ cs, Run.continuesNumber (octets cs) (octet c) = true
  check : Numeral.check cs = .ok ()
  short : cs.length ≤ runLimit

/-- What can stand behind a word or a number. -/
def Stop (text : List Char) : Prop := ∀ c ∈ text.head?, c.isAlphanum = false ∧ c ≠ '.'

theorem goesOn_of_stop (hc : c.toNat < 0x80) (h : c.isAlphanum = false ∧ c ≠ '.')
    (text : List UInt8) : Run.continuesNumber text (octet c) = false := by
  have hall (hex : Bool) : c.isAlphanum = false ∧ c ≠ '.' →
      (Run.isDigit (octet c) || Run.isMarker (octet c) || (hex && Run.isHexDigit (octet c))) =
        false := by
    revert hex
    exact forall_ascii (p := fun c => ∀ hex : Bool, c.isAlphanum = false ∧ c ≠ '.' →
      (Run.isDigit (octet c) || Run.isMarker (octet c) || (hex && Run.isHexDigit (octet c))) =
        false) (by decide) hc
  exact hall _ h

section
variable {text : List Char} (htext : ∀ c ∈ text, c.toNat < 0x80) (hstop : Stop text)
include htext hstop

theorem stop_octets {p : UInt8 → Bool}
    (hp : ∀ c : Char, c.toNat < 0x80 → c.isAlphanum = false ∧ c ≠ '.' → p (octet c) = false) :
    ∀ b ∈ (octets text).head?, p b = false := by
  intro b hb
  rw [head?_octets] at hb
  obtain ⟨c, hc, rfl⟩ := Option.map_eq_some_iff.mp hb
  exact hp c (htext c (List.mem_of_mem_head? hc)) (hstop c hc)

theorem Word.is (h : Word cs) : Run.Is .word (octets cs) (octets text) := by
  have hcs (c : Char) (hc : c ∈ cs) : c.toNat < 0x80 := lt_of_isAlphanum (h.all c hc)
  obtain ⟨c, hc, halpha⟩ := h.first
  refine .word ⟨octet c, ?_, ?_⟩ ⟨?_, ?_⟩
  · rw [head?_octets, hc]
    rfl
  · rw [isLetter_octet (hcs c (List.mem_of_mem_head? hc)), halpha]
  · rw [octets, List.forall_mem_map]
    intro c hc
    rw [isAlnum_octet (hcs c hc), h.all c hc]
  · exact stop_octets htext hstop fun c hc hs => by rw [isAlnum_octet hc, hs.1]

theorem Number.is (h : Number cs) : Run.Is .number (octets cs) (octets text) := by
  have hcs (c : Char) (hc : c ∈ cs) : c.toNat < 0x80 := lt_of_isAlphanum (h.all c hc)
  obtain ⟨c, hc, hdigit⟩ := h.first
  refine .number ⟨octet c, ?_, ?_⟩ ⟨?_, ?_⟩
  · rw [head?_octets, hc]
    rfl
  · rw [isDigit_octet (hcs c (List.mem_of_mem_head? hc)), hdigit]
  · exact List.forall_mem_map.mpr h.goesOn
  · exact stop_octets htext hstop fun c hc hs => goesOn_of_stop hc hs _

end

end Text

open Text

/-- A text, with bound on the punctuators that it starts with, and the tokens that it is written
for. -/
inductive Layout : Nat → List Char → List Token → Prop
  | nil : Layout 0 [] []
  | blank {n : Nat} {c : Char} {text : List Char} {ws : List Token} (hc : c = ' ' ∨ c = '\n')
    (h : Layout n text ws) : Layout 0 (c :: text) ws
  | comment {n : Nat} {cs text : List Char} {ws : List Token}
    (hc : ∀ c ∈ cs, c.toNat < 0x80 ∧ c ≠ '\n') (h : Layout n text ws) :
    Layout 2 ('/' :: '/' :: cs ++ '\n' :: text) ws
  | word {n : Nat} {cs text : List Char} {ws : List Token} (hw : Text.Word cs)
    (hstop : Text.Stop text) (h : Layout n text ws) :
    Layout 0 (cs ++ text) (.bare (wordKind cs) (String.ofList cs) :: ws)
  | number {n : Nat} {cs text : List Char} {ws : List Token} (hw : Text.Number cs)
    (hstop : Text.Stop text) (h : Layout n text ws) :
    Layout 0 (cs ++ text) (.bare .number (String.ofList cs) :: ws)
  | symbol {n : Nat} {c : Char} {text : List Char} {ws : List Token} {k : TokenKind}
    (hk : TokenKind.single? c = some k) (hstop : ∀ d ∈ text.head?, d ≠ '/' ∧ d ≠ '=')
    (hn : n < runLimit) (h : Layout n text ws) :
    Layout (n + 1) (c :: text) (.bare k (String.ofList [c]) :: ws)

namespace Run

theorem Maximal.takeWhile {p : UInt8 → Bool} {text after : List UInt8} (h : Maximal p text after) :
    (text ++ after).takeWhile p = text := by
  have hafter : after.takeWhile p = [] := by
    cases after with
    | nil => rfl
    | cons b after => simp [h.stop b rfl]
  rw [List.takeWhile_append_of_pos h.all, hafter, List.append_nil]

theorem isLetter_of_isDigit {b : UInt8} (h : isDigit b = true) : isLetter b = false := by
  simp only [isDigit, Bool.and_eq_true, decide_eq_true_eq, UInt8.le_iff_toNat_le] at h
  simp [isLetter, UInt8.le_iff_toNat_le] at h ⊢
  omega

/-- A word and a number are read as far as they reach. -/
theorem Is.length_eq {cls : RunClass} {text after : List UInt8} (h : Is cls text after)
    (hcls : cls ≠ .symbol) :
    ∃ b more, text ++ after = b :: more ∧ classify b = cls ∧ length (b :: more) = text.length := by
  cases h with
  | symbol => exact absurd rfl hcls
  | word hf hm =>
    obtain ⟨b, hb, hletter⟩ := hf
    obtain ⟨text, rfl⟩ := List.head?_eq_some_iff.mp hb
    have hclass : classify b = .word := by simp [classify, hletter]
    refine ⟨b, text ++ after, rfl, hclass, ?_⟩
    simp only [length, hclass]
    rw [← List.cons_append, hm.takeWhile]
  | number hf hm =>
    obtain ⟨b, hb, hdigit⟩ := hf
    obtain ⟨text, rfl⟩ := List.head?_eq_some_iff.mp hb
    have hclass : classify b = .number := by simp [classify, isLetter_of_isDigit hdigit, hdigit]
    have hhex : isHex (b :: text ++ after) = isHex (b :: text) := by
      cases text with
      | cons b' text => rfl
      | nil =>
        cases after with
        | nil => rfl
        | cons b' after =>
          -- The mark of radix 16 would go on with the number.
          have hstop := hm.stop b' rfl
          simp only [continuesNumber, Bool.or_eq_false_iff] at hstop
          simp only [isMarker, Bool.or_eq_false_iff] at hstop
          simp [isHex, hstop]
    have hnumber : continuesNumber (b :: text ++ after) = continuesNumber (b :: text) := by
      funext c
      rw [continuesNumber, hhex]
      rfl
    refine ⟨b, text ++ after, rfl, hclass, ?_⟩
    rw [length_of_number hclass, ← List.cons_append, hnumber, hm.takeWhile]

end Run

namespace Layout

variable {n : Nat} {text : List Char} {ws : List Token}

theorem ascii (h : Layout n text ws) : ∀ c ∈ text, c.toNat < 0x80 := by
  induction h with
  | nil => exact List.forall_mem_nil _
  | blank hc _ ih =>
    refine List.forall_mem_cons.mpr ⟨?_, ih⟩
    rcases hc with rfl | rfl <;> decide
  | comment hc _ ih =>
    intro c hmem
    simp only [List.cons_append, List.mem_cons, List.mem_append] at hmem
    rcases hmem with rfl | rfl | hmem | rfl | hmem
    · decide
    · decide
    · exact (hc c hmem).1
    · decide
    · exact ih c hmem
  | word hw _ _ ih =>
    exact List.forall_mem_append.mpr ⟨fun c hc => lt_of_isAlphanum (hw.all c hc), ih⟩
  | number hw _ _ ih =>
    exact List.forall_mem_append.mpr ⟨fun c hc => lt_of_isAlphanum (hw.all c hc), ih⟩
  | symbol hk _ _ _ ih =>
    exact List.forall_mem_cons.mpr ⟨TokenKind.ascii_of_single? hk, ih⟩

end Layout

namespace Run

theorem symbolLength_of_stop {input : List UInt8}
    (h : ∀ b ∈ input.head?, isAlnum b = true ∨ isBlank b = true) (afterSlash : Bool) (n : Nat) :
    symbolLength afterSlash n input = n := by
  cases input with
  | nil => rfl
  | cons b input => simp [symbolLength, h b rfl]

/-- A punctuator makes a symbol run longer by one, unless two slashes meet. -/
theorem symbolLength_cons {b : UInt8} {more : List UInt8}
    (hb : isAlnum b = false ∧ isBlank b = false) (hmore : ∀ b ∈ more.head?, b ≠ slash) :
    symbolLength false 0 (b :: more) = symbolLength false 0 more + 1 := by
  have hafter : symbolLength (b == slash) 1 more = symbolLength false 1 more := by
    cases more with
    | nil => rfl
    | cons b' more =>
      have hb' : (b' == slash) = false := by simpa using hmore b' rfl
      simp [symbolLength, hb']
  have hfirst : symbolLength false 0 (b :: more) = symbolLength (b == slash) 1 more := by
    simp [symbolLength, hb.1, hb.2]
  rw [hfirst, hafter, symbolLength_add, Nat.add_comm]

theorem isBlank_of_classify {b : UInt8} (h : classify b ≠ .symbol) : isBlank b = false := by
  by_cases hl : isLetter b = true
  · exact isBlank_of_isLetter hl
  · by_cases hd : isDigit b = true
    · simp only [isDigit, Bool.and_eq_true, decide_eq_true_eq, UInt8.le_iff_toNat_le] at hd
      simp [isBlank, newline, ← UInt8.toNat_inj] at hd ⊢
      omega
    · simp [classify, hl, hd] at h

end Run

namespace Text

variable {c : Char} {k : TokenKind} {text : List Char}

/-- Punctuators are neither letters nor digits nor blanks. -/
theorem symbol_octet (h : TokenKind.single? c = some k) :
    Run.isAlnum (octet c) = false ∧ Run.isBlank (octet c) = false := by
  unfold TokenKind.single? at h
  split at h
  all_goals first | decide | cases h

theorem head_octets_ne {x : Char} (htext : ∀ c ∈ text, c.toNat < 0x80) (hx : x.toNat < 0x80)
    (h : ∀ c ∈ text.head?, c ≠ x) : ∀ b ∈ (octets text).head?, b ≠ octet x := by
  rintro b hb rfl
  rw [head?_octets] at hb
  obtain ⟨c, hc, heq⟩ := Option.map_eq_some_iff.mp hb
  apply h c hc
  rw [← ofNat_octet hx, ← heq, ofNat_octet (htext c (List.mem_of_mem_head? hc))]

end Text

namespace Layout

variable {n : Nat} {text : List Char} {ws : List Token}

theorem alnum_head {cs : List Char} {c : Char} (hc : c ∈ cs.head?) (h : c.isAlphanum = true) :
    ∀ b ∈ (octets (cs ++ text)).head?, Run.isAlnum b = true ∨ Run.isBlank b = true := by
  obtain ⟨cs, rfl⟩ := List.head?_eq_some_iff.mp hc
  intro b hb
  obtain rfl := Option.some.inj hb
  rw [isAlnum_octet (lt_of_isAlphanum h)]
  exact .inl h

/-- A text that starts with no punctuator ends the symbol run in front of it. -/
theorem stop_of_zero (h : Layout 0 text ws) :
    ∀ b ∈ (octets text).head?, Run.isAlnum b = true ∨ Run.isBlank b = true := by
  cases h with
  | nil => exact nofun
  | blank hc _ =>
    intro b hb
    obtain rfl := Option.some.inj hb
    rcases hc with rfl | rfl <;> decide
  | word hw _ _ =>
    obtain ⟨c, hc, -⟩ := hw.first
    exact alnum_head hc (hw.all c (List.mem_of_mem_head? hc))
  | number hw _ _ =>
    obtain ⟨c, hc, -⟩ := hw.first
    exact alnum_head hc (hw.all c (List.mem_of_mem_head? hc))

/-- A text starts with no more punctuators than its bound says. -/
theorem symbolLength_le (h : Layout n text ws) : Run.symbolLength false 0 (octets text) ≤ n := by
  have hzero {text : List Char} {ws : List Token} (h : Layout 0 text ws) :
      Run.symbolLength false 0 (octets text) ≤ 0 := by
    rw [Run.symbolLength_of_stop h.stop_of_zero]
  induction h with
  | nil => exact hzero .nil
  | blank hc h _ => exact hzero (.blank hc h)
  | word hw hstop h _ => exact hzero (.word hw hstop h)
  | number hw hstop h _ => exact hzero (.number hw hstop h)
  | comment _ _ _ =>
    simp only [List.cons_append, octets_cons]
    exact Nat.le_refl 2
  | symbol hk hstop hn h ih =>
    have hslash := head_octets_ne h.ascii (x := '/') (by decide) fun d hd => (hstop d hd).1
    rw [octets_cons, Run.symbolLength_cons (symbol_octet hk) hslash]
    exact Nat.succ_le_succ ih

end Layout

namespace Stream

/-- The stream behind a run. -/
def behind (st : Stream) (text after : List UInt8) : Stream :=
  ⟨⟨after, none, after.isEmpty, .none⟩, st.file, st.line, st.column + text.length⟩

theorem behind_behind (st : Stream) (text text' after after' : List UInt8) :
    (st.behind text after).behind text' after' = st.behind (text ++ text') after' := by
  simp [behind, Nat.add_assoc]

theorem skip_nil (st : Stream) : skip (.of []) st = st := rfl

theorem forall_no_blanks : ∀ b ∈ ([] : List UInt8), Run.isBlank b = true := List.forall_mem_nil _

theorem sound_behind (st : Stream) (text after : List UInt8) : (st.behind text after).cursor.Sound :=
  ⟨rfl, rfl, List.isEmpty_iff.mp⟩

/-- A word and a number are scanned as far as they reach. -/
theorem scan_of_is {st : Stream} {blanks text after : List UInt8} {cls : RunClass}
    (hsound : st.cursor.Sound) (hblanks : ∀ b ∈ blanks, Run.isBlank b = true)
    (hrest : st.cursor.rest = blanks ++ (text ++ after)) (hr : Run.Is cls text after)
    (hcls : cls ≠ .symbol) (hshort : text.length ≤ runLimit) :
    ∃ b more, Run.classify b = cls ∧ (b :: more).take (Run.length (b :: more)) = text ∧
      (b :: more).drop (Run.length (b :: more)) = after ∧
      st.scan = read b more (skip (.of blanks) st) := by
  obtain ⟨b, more, hsplit, hclass, hlength⟩ := hr.length_eq hcls
  refine ⟨b, more, hclass, ?_, ?_, ?_⟩
  · rw [hlength, ← hsplit, List.take_left]
  · rw [hlength, ← hsplit, List.drop_left]
  · rw [hsplit] at hrest
    have hblank := Run.isBlank_of_classify (hclass.trans_ne hcls)
    exact scan_of_run hsound ⟨hrest, hblanks, hblank⟩ (hlength.trans_le hshort)

section
variable {st : Stream} {blanks : List UInt8} {cs text : List Char} (hsound : st.cursor.Sound)
  (hblanks : ∀ b ∈ blanks, Run.isBlank b = true) (htext : ∀ c ∈ text, c.toNat < 0x80)
include hsound hblanks htext

theorem scan_of_word (hrest : st.cursor.rest = blanks ++ octets (cs ++ text)) (hw : Text.Word cs)
    (hstop : Text.Stop text) :
    st.scan = (.tokens [⟨wordKind cs, String.ofList cs, (skip (.of blanks) st).here⟩],
      (skip (.of blanks) st).behind (octets cs) (octets text)) := by
  rw [octets_append] at hrest
  obtain ⟨b, more, hclass, htake, hdrop, hscan⟩ := scan_of_is hsound hblanks hrest
    (hw.is htext hstop) (by decide) ((length_octets cs).trans_le hw.short)
  have hascii := ascii_octets fun c hc => lt_of_isAlphanum (hw.all c hc)
  rw [hscan]
  simp only [read, hclass, htake, hdrop, scanWord, hascii]
  rfl

theorem scan_of_number (hrest : st.cursor.rest = blanks ++ octets (cs ++ text))
    (hw : Text.Number cs) (hstop : Text.Stop text) :
    st.scan = (.tokens [⟨.number, String.ofList cs, (skip (.of blanks) st).here⟩],
      (skip (.of blanks) st).behind (octets cs) (octets text)) := by
  rw [octets_append] at hrest
  obtain ⟨b, more, hclass, htake, hdrop, hscan⟩ := scan_of_is hsound hblanks hrest
    (hw.is htext hstop) (by decide) ((length_octets cs).trans_le hw.short)
  have hascii := ascii_octets fun c hc => lt_of_isAlphanum (hw.all c hc)
  rw [hscan]
  simp only [read, hclass, htake, hdrop, scanNumber, hascii, hw.check]
  rfl

/-- A symbol run is read up to the punctuators of the text behind its first. -/
theorem scan_of_symbol {c : Char} {k : TokenKind} {n : Nat}
    (hrest : st.cursor.rest = blanks ++ octets (c :: text)) (hk : TokenKind.single? c = some k)
    (hslash : ∀ d ∈ text.head?, d ≠ '/') (hn : Run.symbolLength false 0 (octets text) = n)
    (hshort : n < runLimit) :
    st.scan = scanSymbols (skip (.of blanks) st).here (octets (c :: text.take n))
      ((skip (.of blanks) st).behind (octets (c :: text.take n)) (octets (text.drop n))) := by
  have hslash := head_octets_ne htext (x := '/') (by decide) hslash
  have hclass : Run.classify (octet c) = .symbol := by
    have := (symbol_octet hk).1
    simp only [Run.isAlnum, Bool.or_eq_false_iff] at this
    simp [Run.classify, this]
  have hlength : Run.length (octet c :: octets text) = n + 1 := by
    simp only [Run.length, hclass]
    rw [Run.symbolLength_cons (symbol_octet hk) hslash, hn]
  have hlimit : Run.length (octet c :: octets text) ≤ runLimit := hlength ▸ hshort
  rw [octets_cons] at hrest
  rw [scan_of_run hsound ⟨hrest, hblanks, (symbol_octet hk).2⟩ hlimit]
  have htake : (octet c :: octets text).take (n + 1) = octets (c :: text.take n) := by
    simp [octets]
  have hdrop : (octet c :: octets text).drop (n + 1) = octets (text.drop n) := by
    simp [octets]
  simp only [read, hclass, hlength, htake, hdrop]
  rfl

end

/-- Two slashes drop the rest of their line. -/
theorem scan_of_comment {st : Stream} {blanks : List UInt8} {cs text : List Char}
    (hsound : st.cursor.Sound) (hblanks : ∀ b ∈ blanks, Run.isBlank b = true)
    (hrest : st.cursor.rest = blanks ++ octets ('/' :: '/' :: cs ++ '\n' :: text))
    (hcs : ∀ c ∈ cs, c.toNat < 0x80 ∧ c ≠ '\n') :
    ∃ next : Stream, st.scan = (.tokens [], next) ∧ next.cursor.Sound ∧
      next.cursor.rest = Run.newline :: octets text := by
  let st' := skip (.of blanks) st
  let line := octets (cs ++ '\n' :: text)
  have hrun : st.scan = scanSymbols st'.here [Run.slash, Run.slash]
      (st'.behind [Run.slash, Run.slash] line) := by
    have hahead : st.Ahead blanks Run.slash (Run.slash :: line) := ⟨hrest, hblanks, by decide⟩
    have hlength : Run.length (Run.slash :: Run.slash :: line) = 2 := rfl
    rw [scan_of_run hsound hahead (hlength ▸ by decide)]
    rfl
  obtain ⟨c, hskip, hcursor, hline⟩ := (sound_behind st' [Run.slash, Run.slash] line).skipLine
  have hcomment : scanSymbols st'.here [Run.slash, Run.slash]
      (st'.behind [Run.slash, Run.slash] line) =
      (.tokens [], { st'.behind [Run.slash, Run.slash] line with cursor := c }) := by
    have hdecode : decodeLossy [Run.slash, Run.slash] = ['/', '/'] := by decide
    simp [scanSymbols, hdecode, splitSymbols, hskip]
  refine ⟨_, hrun.trans hcomment, hcursor, ?_⟩
  have hall : ∀ b ∈ octets cs, (b != Run.newline) = true := by
    rw [octets, List.forall_mem_map]
    intro c hc
    rw [bne_iff_ne]
    intro heq
    apply (hcs c hc).2
    rw [← ofNat_octet (hcs c hc).1, heq]
    rfl
  have hdrop : (octets (cs ++ '\n' :: text)).dropWhile (· != Run.newline) =
      Run.newline :: octets text := by
    rw [octets_append, List.dropWhile_append_of_pos hall, octets_cons]
    rfl
  exact hline.trans hdrop

/-- Pulling gives the tokens, but for their places, and then the end. -/
def Gives (st : Stream) (budget : Budget) (pull : Nat) (ws : List Token) : Prop :=
  ∃ ts, (st.items (fun _ => budget) pull).mapM id = .ok ts ∧
    ts.map (Token.move .nowhere) = ws ++ [.bare .eof ""]

variable {st st' next : Stream} {budget : Budget} {pull : Nat} {t : Token} {ts ws us : List Token}

theorem gives_of_finished (hb : budget.check = none) {site : Site}
    (hs : st.scan = (.finished ⟨.eof, "", site⟩, next)) : st.Gives budget pull [] := by
  refine ⟨[⟨.eof, "", site⟩], ?_, rfl⟩
  rw [items_of_finished hb hs]
  rfl

theorem gives_of_tokens (hb : budget.check = none) (hs : st.scan = (.tokens ts, next))
    (h : next.Gives budget (pull + ts.length) ws) :
    st.Gives budget pull (ts.map (Token.move .nowhere) ++ ws) := by
  obtain ⟨ts', hitems, hws⟩ := h
  refine ⟨ts ++ ts', ?_, ?_⟩
  · rw [items_of_tokens hb hs, mapM_id_append, hitems]
    rfl
  · rw [List.map_append, hws, List.append_assoc]

/-- A stream whose scan gives a token more than that of another gives it in front. -/
theorem gives_cons (hb : budget.check = none) (hs : st.scan = (.tokens (t :: ts), next))
    (hs' : st'.scan = (.tokens ts, next)) (h : st'.Gives budget (pull + 1) ws) :
    st.Gives budget pull (t.move .nowhere :: ws) := by
  obtain ⟨ts', hitems, hws⟩ := h
  refine ⟨t :: ts', ?_, ?_⟩
  · rw [items_of_tokens hb hs'] at hitems
    rw [items_of_tokens hb hs, List.map_cons, List.cons_append, List.mapM_cons, List.length_cons,
      Nat.add_comm ts.length, ← Nat.add_assoc, hitems]
    rfl
  · rw [List.map_cons, hws, List.cons_append]

theorem Gives.exists_tokens (hb : budget.check = none) (h : st.Gives budget pull ws)
    (hne : ∀ eof, st.scan.1 ≠ .finished eof) : ∃ ts next, st.scan = (.tokens ts, next) := by
  obtain ⟨all, hitems, -⟩ := h
  rw [items, hb] at hitems
  simp only at hitems
  split at hitems
  · next ts next hs => exact ⟨ts, next, hs⟩
  · next eof next hs => exact absurd (congrArg Prod.fst hs) (hne eof)
  · cases hitems

/-- A punctuator in front of a symbol run comes out in front of its tokens. -/
theorem scanSymbols_cons {file : String} {line column : Nat} {c d : Char} {cs : List Char}
    {k : TokenKind} {next s : Stream} {ts : List Token} (hk : TokenKind.single? c = some k)
    (hd : d ≠ '/' ∧ d ≠ '=') (hcs : ∀ x ∈ d :: cs, x.toNat < 0x80)
    (h : scanSymbols ⟨file, line, column + 1⟩ (octets (d :: cs)) s = (.tokens ts, next)) :
    scanSymbols ⟨file, line, column⟩ (octets (c :: d :: cs)) s =
      (.tokens (⟨k, String.ofList [c], ⟨file, line, column⟩⟩ :: ts), next) := by
  have hall : ∀ x ∈ c :: d :: cs, x.toNat < 0x80 :=
    List.forall_mem_cons.mpr ⟨TokenKind.ascii_of_single? hk, hcs⟩
  have hsplit : splitSymbols file line column (c :: d :: cs) =
      (⟨k, String.ofList [c], ⟨file, line, column⟩⟩ ::
        (splitSymbols file line (column + 1) (d :: cs)).1,
        (splitSymbols file line (column + 1) (d :: cs)).2) := by
    rw [splitSymbols, if_neg fun hslash => hd.1 hslash.2, TokenKind.pair?_of_ne hd.2, hk]
  simp only [scanSymbols, decodeLossy_octets hcs] at h
  simp only [scanSymbols, decodeLossy_octets hall, hsplit]
  cases hend : (splitSymbols file line (column + 1) (d :: cs)).2 with
  | complete =>
    rw [hend] at h
    cases h
    rfl
  | comment =>
    rw [hend] at h
    simp only at h ⊢
    split at h
    · cases h
      rfl
    · cases h
  | illegal x column' =>
    rw [hend] at h
    cases h

end Stream

namespace Layout

section
variable {st : Stream} {blanks : List UInt8} {n : Nat} {c : Char} {k : TokenKind}
  {text : List Char} {ws : List Token} (hsound : st.cursor.Sound)
  (hblanks : ∀ b ∈ blanks, Run.isBlank b = true) (hk : TokenKind.single? c = some k)
include hsound hblanks hk

/-- In front of what is no punctuator, a punctuator is read alone. -/
theorem scan_lone (hrest : st.cursor.rest = blanks ++ octets (c :: text)) (h : Layout 0 text ws)
    (hslash : ∀ d ∈ text.head?, d ≠ '/') :
    st.scan = (.tokens [⟨k, String.ofList [c], (Stream.skip (.of blanks) st).here⟩],
      (Stream.skip (.of blanks) st).behind [octet c] (octets text)) := by
  have hzero := Run.symbolLength_of_stop h.stop_of_zero false 0
  have hdecode : decodeLossy (octets [c]) = [c] :=
    decodeLossy_octets (List.forall_mem_singleton.mpr (TokenKind.ascii_of_single? hk))
  rw [Stream.scan_of_symbol hsound hblanks h.ascii hrest hk hslash hzero (by decide),
    Stream.scanSymbols, List.take_zero, hdecode, splitSymbols, hk]
  rfl

/-- In front of another, a punctuator comes out in front of what the stream behind it reads. -/
theorem scan_joined {d : Char} {k' : TokenKind} {ts : List Token} {next : Stream}
    (hrest : st.cursor.rest = blanks ++ octets (c :: d :: text)) (hd : d ≠ '/' ∧ d ≠ '=')
    (hk' : TokenKind.single? d = some k') (hslash : ∀ x ∈ text.head?, x ≠ '/')
    (h : Layout n text ws) (hn : n + 1 < runLimit)
    (hnext : ((Stream.skip (.of blanks) st).behind [octet c] (octets (d :: text))).scan =
      (.tokens ts, next)) :
    st.scan = (.tokens (⟨k, String.ofList [c], (Stream.skip (.of blanks) st).here⟩ :: ts), next) := by
  have hshort := Nat.lt_of_le_of_lt (Nat.succ_le_succ h.symbolLength_le) hn
  have hall : ∀ x ∈ d :: text, x.toNat < 0x80 :=
    List.forall_mem_cons.mpr ⟨TokenKind.ascii_of_single? hk', h.ascii⟩
  have hhead (x : Char) (hx : x ∈ (d :: text).head?) : x ≠ '/' := by
    obtain rfl := Option.some.inj hx
    exact hd.1
  have hlength : Run.symbolLength false 0 (octets (d :: text)) =
      Run.symbolLength false 0 (octets text) + 1 :=
    Run.symbolLength_cons (symbol_octet hk') (head_octets_ne h.ascii (by decide) hslash)
  have hscan := Stream.scan_of_symbol hsound hblanks hall hrest hk hhead hlength hshort
  rw [List.take_succ_cons, List.drop_succ_cons] at hscan
  have hscan' := Stream.scan_of_symbol
    (Stream.sound_behind (Stream.skip (.of blanks) st) [octet c] (octets (d :: text)))
    Stream.forall_no_blanks h.ascii rfl hk' hslash rfl (Nat.lt_of_succ_lt hshort)
  rw [hscan'] at hnext
  have hcs : ∀ x ∈ d :: text.take (Run.symbolLength false 0 (octets text)), x.toNat < 0x80 :=
    fun x hx => hall x (List.mem_cons.mpr ((List.mem_cons.mp hx).imp_right List.mem_of_mem_take))
  have hcons := Stream.scanSymbols_cons hk hd hcs hnext
  rw [Stream.skip_nil, Stream.behind_behind] at hcons
  exact hscan.trans hcons

/-- A punctuator is given in front of what the stream behind it gives. -/
theorem gives_symbol {budget : Budget} (hb : budget.check = none) {pull : Nat}
    (hrest : st.cursor.rest = blanks ++ octets (c :: text))
    (hstop : ∀ d ∈ text.head?, d ≠ '/' ∧ d ≠ '=') (hn : n < runLimit) (h : Layout n text ws)
    (hnext : ((Stream.skip (.of blanks) st).behind [octet c] (octets text)).Gives budget (pull + 1)
      ws) :
    st.Gives budget pull (.bare k (String.ofList [c]) :: ws) := by
  rcases Nat.eq_zero_or_pos n with rfl | hpos
  · have hscan := scan_lone hsound hblanks hk hrest h fun d hd => (hstop d hd).1
    exact Stream.gives_of_tokens hb hscan hnext
  · cases h with
    | nil => exact absurd hpos (Nat.lt_irrefl 0)
    | blank => exact absurd hpos (Nat.lt_irrefl 0)
    | word => exact absurd hpos (Nat.lt_irrefl 0)
    | number => exact absurd hpos (Nat.lt_irrefl 0)
    | comment => exact absurd rfl (hstop '/' rfl).1
    | @symbol n' d text ws k' hk' hstop' hn' h =>
      have hne (eof : Token) :
          ((Stream.skip (.of blanks) st).behind [octet c] (octets (d :: text))).scan.1 ≠
            .finished eof := by
        intro heof
        have hblank := (Stream.blank_of_finished (Stream.sound_behind _ _ _)
          (Prod.ext heof rfl)).1 (octet d) (List.mem_cons_self)
        cases hblank.symm.trans (symbol_octet hk').2
      obtain ⟨ts, next, hscan'⟩ := hnext.exists_tokens hb hne
      have hscan := scan_joined hsound hblanks hk hrest (hstop d rfl) hk'
        (fun x hx => (hstop' x hx).1) h hn hscan'
      exact Stream.gives_cons hb hscan hscan' hnext

end

end Layout

/-- Pulling from a text gives the tokens that it is written for. -/
theorem Layout.gives {budget : Budget} (hb : budget.check = none) {n : Nat} {text : List Char}
    {ws : List Token} (h : Layout n text ws) {st : Stream} {blanks : List UInt8} (pull : Nat)
    (hsound : st.cursor.Sound) (hblanks : ∀ b ∈ blanks, Run.isBlank b = true)
    (hrest : st.cursor.rest = blanks ++ octets text) : st.Gives budget pull ws := by
  -- Blanks pile up in front of the next run, so that they stand in the statement.
  induction h generalizing st blanks pull with
  | nil =>
    have hall : ∀ b ∈ st.cursor.rest, Run.isBlank b = true := by
      rw [hrest]
      simpa using hblanks
    obtain ⟨next, hscan⟩ := Stream.scan_of_blank hsound hall
    exact Stream.gives_of_finished hb hscan
  | @blank _ c _ _ hc _ ih =>
    have hblank : Run.isBlank (octet c) = true := by
      rcases hc with rfl | rfl <;> decide
    have hmore : ∀ b ∈ blanks ++ [octet c], Run.isBlank b = true :=
      List.forall_mem_append.mpr ⟨hblanks, List.forall_mem_singleton.mpr hblank⟩
    exact ih pull hsound hmore (by simp [hrest])
  | comment hc _ ih =>
    obtain ⟨next, hscan, hnext, hline⟩ := Stream.scan_of_comment hsound hblanks hrest hc
    have hblank : ∀ b ∈ [Run.newline], Run.isBlank b = true :=
      List.forall_mem_singleton.mpr Run.isBlank_newline
    exact Stream.gives_of_tokens hb hscan (ih _ hnext hblank hline)
  | word hw hstop h ih =>
    have hscan := Stream.scan_of_word hsound hblanks h.ascii hrest hw hstop
    refine Stream.gives_of_tokens hb hscan ?_
    exact ih _ (Stream.sound_behind _ _ _) Stream.forall_no_blanks rfl
  | number hw hstop h ih =>
    have hscan := Stream.scan_of_number hsound hblanks h.ascii hrest hw hstop
    refine Stream.gives_of_tokens hb hscan ?_
    exact ih _ (Stream.sound_behind _ _ _) Stream.forall_no_blanks rfl
  | symbol hk hstop hn h ih =>
    refine gives_symbol hsound hblanks hk hb hrest hstop hn h ?_
    exact ih _ (Stream.sound_behind _ _ _) Stream.forall_no_blanks rfl

/-- A text lexes to the tokens that it is written for. -/
theorem Layout.exists_tokens {budget : Budget} (hb : budget.check = none) {n : Nat} {text : List Char}
    {ws : List Token} (h : Layout n text ws) (file : String) :
    ∃ ts, tokenize budget file (.ofBytes (String.ofList text).toUTF8.toList) = .ok ts ∧
      ts.map (Token.move .nowhere) = ws ++ [Token.bare .eof ""] := by
  rw [toUTF8_ofList h.ascii]
  exact h.gives hb 0 (Stream.sound_start file _) Stream.forall_no_blanks rfl

end ThreeAddress
