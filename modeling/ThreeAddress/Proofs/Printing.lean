import ThreeAddress.Proofs.Layout

namespace ThreeAddress

open Text

namespace Numeral

variable {c : Char} {s : List Char} {radix : Nat}

theorem lt_of_isSome_digit? (h : (digit? radix c).isSome = true) : c.toNat < 0x80 := by
  obtain ⟨v, hv⟩ := Option.isSome_iff_exists.mp h
  have hvalue := (Option.filter_eq_some_iff.mp hv).1
  unfold digitValue at hvalue
  simp only [Char.le_def, UInt32.le_iff_toNat_le] at hvalue
  split at hvalue
  · next hc => exact Nat.lt_of_le_of_lt hc.2 (by decide)
  · split at hvalue
    · next hc => exact Nat.lt_of_le_of_lt hc.2 (by decide)
    · split at hvalue
      · next hc => exact Nat.lt_of_le_of_lt hc.2 (by decide)
      · cases hvalue

/-- Digits of a radix up to ten are decimal digits. -/
theorem isDigit_of_digit? (hradix : radix = 2 ∨ radix = 10) (h : (digit? radix c).isSome = true) :
    Run.isDigit (octet c) = true := by
  have hc := lt_of_isSome_digit? h
  rcases hradix with rfl | rfl
  · exact forall_ascii (p := fun c => (digit? 2 c).isSome = true → Run.isDigit (octet c) = true)
      (by decide) hc h
  · exact forall_ascii (p := fun c => (digit? 10 c).isSome = true → Run.isDigit (octet c) = true)
      (by decide) hc h

theorem isHexDigit_of_digit? (h : (digit? 16 c).isSome = true) :
    Run.isHexDigit (octet c) = true :=
  forall_ascii (p := fun c => (digit? 16 c).isSome = true → Run.isHexDigit (octet c) = true)
    (by decide) (lt_of_isSome_digit? h) h

/-- Suffixes are made of letters that may stand in numbers. -/
theorem marker_of_splitSuffix (h : c ∈ (splitSuffix s).2) :
    c.toNat < 0x80 ∧ Run.isMarker (octet c) = true := by
  have hall : suffixes.flatten.all (fun c => c.toNat < 0x80 && Run.isMarker (octet c)) = true := by
    decide
  unfold splitSuffix at h
  split at h
  · next t ht =>
    have hmem : c ∈ suffixes.flatten := List.mem_flatten.mpr ⟨t, List.mem_of_find?_eq_some ht, h⟩
    simpa using List.all_eq_true.mp hall c hmem
  · cases h

/-- A body is the mark of its radix and its digits. -/
theorem splitRadix_cases (s : List Char) :
    s = (splitRadix s).1 ∧ (splitRadix s).2 = 10 ∨
      (∃ x, (x = 'x' ∨ x = 'X') ∧ s = '0' :: x :: (splitRadix s).1 ∧ (splitRadix s).2 = 16) ∨
      ∃ x, (x = 'b' ∨ x = 'B') ∧ s = '0' :: x :: (splitRadix s).1 ∧ (splitRadix s).2 = 2 := by
  unfold splitRadix
  split
  · exact .inr (.inl ⟨'x', .inl rfl, rfl, rfl⟩)
  · exact .inr (.inl ⟨'X', .inr rfl, rfl, rfl⟩)
  · exact .inr (.inr ⟨'b', .inl rfl, rfl, rfl⟩)
  · exact .inr (.inr ⟨'B', .inr rfl, rfl, rfl⟩)
  · exact .inl ⟨rfl, rfl⟩

theorem digits_of_checkInt (h : checkInt s radix = .ok ()) :
    ∀ c ∈ s, (digit? radix c).isSome = true := by
  unfold checkInt at h
  split at h
  · cases h
  · split at h
    · next hall => exact List.all_eq_true.mp hall
    · cases h

theorem digits_of_checkFloat {whole fraction : List Char}
    (h : checkFloat whole fraction = .ok ()) : ∀ c ∈ whole ++ fraction, c.isDigit = true := by
  unfold checkFloat at h
  split at h
  · cases h
  · split at h
    · cases h
    · split at h
      · next hall =>
        obtain ⟨hwhole, hfraction⟩ := Bool.and_eq_true_iff.mp hall
        exact List.forall_mem_append.mpr
          ⟨List.all_eq_true.mp hwhole, List.all_eq_true.mp hfraction⟩
      · cases h

/-- A character that can stand anywhere in a number. -/
theorem continues_of_common (text : List UInt8)
    (h : Run.isDigit (octet c) = true ∨ Run.isMarker (octet c) = true) :
    Run.continuesNumber text (octet c) = true := by
  rcases h with h | h <;> simp [Run.continuesNumber, h]

theorem continues_of_checkFloat (hf : isFloat s = true)
    (h : checkFloat (splitPoint s).1 (splitPoint s).2 = .ok ()) :
    ∀ c ∈ s, c.toNat < 0x80 ∧ Run.continuesNumber (octets s) (octet c) = true := by
  have hdigits := digits_of_checkFloat h
  have hdigit {c : Char} (hc : c ∈ (splitPoint s).1 ++ (splitPoint s).2) :
      c.toNat < 0x80 ∧ Run.continuesNumber (octets s) (octet c) = true := by
    have hlt : c.toNat < 0x80 := lt_of_isAlphanum (by simp [Char.isAlphanum, hdigits c hc])
    refine ⟨hlt, continues_of_common _ (.inl ?_)⟩
    rw [isDigit_octet hlt, hdigits c hc]
  intro c hc
  rw [← splitPoint_append s hf, List.mem_append, List.mem_cons] at hc
  rcases hc with hc | rfl | hc
  · exact hdigit (List.mem_append_left _ hc)
  · exact ⟨by decide, continues_of_common _ (.inr (by decide))⟩
  · exact hdigit (List.mem_append_right _ hc)

theorem continues_of_checkInt
    (h : checkInt (splitRadix (splitSuffix s).1).1 (splitRadix (splitSuffix s).1).2 = .ok ()) :
    ∀ c ∈ s, c.toNat < 0x80 ∧ Run.continuesNumber (octets s) (octet c) = true := by
  have hdigits := digits_of_checkInt h
  have hsuffix := splitSuffix_append s
  have hlt (c : Char) (hc : c ∈ (splitRadix (splitSuffix s).1).1) :=
    lt_of_isSome_digit? (hdigits c hc)
  have hmarked {x : Char} (hx : x.toNat < 0x80 ∧ Run.isMarker (octet x) = true)
      (hs : (splitSuffix s).1 = '0' :: x :: (splitRadix (splitSuffix s).1).1)
      (hd : ∀ c ∈ (splitRadix (splitSuffix s).1).1,
        Run.continuesNumber (octets s) (octet c) = true) :
      ∀ c ∈ (splitSuffix s).1,
        c.toNat < 0x80 ∧ Run.continuesNumber (octets s) (octet c) = true := by
    rw [hs]
    refine List.forall_mem_cons.mpr ⟨⟨by decide, continues_of_common _ (.inl (by decide))⟩, ?_⟩
    refine List.forall_mem_cons.mpr ⟨⟨hx.1, continues_of_common _ (.inr hx.2)⟩, ?_⟩
    exact fun c hc => ⟨hlt c hc, hd c hc⟩
  have hbody : ∀ c ∈ (splitSuffix s).1,
      c.toNat < 0x80 ∧ Run.continuesNumber (octets s) (octet c) = true := by
    rcases splitRadix_cases (splitSuffix s).1 with
      ⟨hs, hradix⟩ | ⟨x, hx, hs, hradix⟩ | ⟨x, hx, hs, hradix⟩
    · rw [hradix] at hdigits
      rw [hs]
      intro c hc
      exact ⟨hlt c hc, continues_of_common _ (.inl (isDigit_of_digit? (.inr rfl) (hdigits c hc)))⟩
    · -- The mark of radix 16 is part of the number, so the letters of its digits go on with it.
      rw [hradix] at hdigits
      have hhex : Run.isHex (octets s) = true := by
        rw [← hsuffix, hs]
        rcases hx with rfl | rfl <;> rfl
      refine hmarked (by rcases hx with rfl | rfl <;> decide) hs fun c hc => ?_
      simp [Run.continuesNumber, hhex, isHexDigit_of_digit? (hdigits c hc)]
    · rw [hradix] at hdigits
      refine hmarked (by rcases hx with rfl | rfl <;> decide) hs fun c hc => ?_
      exact continues_of_common _ (.inl (isDigit_of_digit? (.inl rfl) (hdigits c hc)))
  intro c hc
  rw [← hsuffix, List.mem_append] at hc
  rcases hc with hc | hc
  · exact hbody c hc
  · obtain ⟨hlt, hmarker⟩ := marker_of_splitSuffix hc
    exact ⟨hlt, continues_of_common _ (.inr hmarker)⟩

/-- The characters of an accepted number all go on with it. -/
theorem continues_of_check (h : check s = .ok ()) :
    ∀ c ∈ s, c.toNat < 0x80 ∧ Run.continuesNumber (octets s) (octet c) = true := by
  unfold check at h
  split at h
  · next hf => exact continues_of_checkFloat hf h
  · exact continues_of_checkInt h

end Numeral

/-- A lexeme that can be written for a kind: its own spelling, a name that is no reserved word, or
an accepted number, the latter two not longer than what is read. -/
inductive TokenKind.Prints : TokenKind → String → Prop
  | spelled {k : TokenKind} {x : String} (h : k.spelling? = some x) : Prints k x
  | ident {x : String} (first : ∃ c ∈ x.toList.head?, c.isAlpha = true)
    (all : ∀ c ∈ x.toList, c.isAlphanum = true) (short : x.utf8ByteSize ≤ runLimit)
    (free : x ∉ reserved.map Prod.fst) : Prints .ident x
  | number {x : String} (first : ∃ c ∈ x.toList.head?, c.isDigit = true)
    (check : Numeral.check x.toList = .ok ()) (short : x.utf8ByteSize ≤ runLimit) : Prints .number x

namespace Text

/-- A blank, a tab and the ends of lines. -/
def isSpace (c : Char) : Bool := c = ' ' || c = '\t' || c = '\r' || c = '\n'

variable {c : Char} {cs text : List Char}

theorem isSpace_cases (h : isSpace c = true) : c = ' ' ∨ c = '\t' ∨ c = '\r' ∨ c = '\n' := by
  simpa [isSpace, or_assoc] using h

theorem lt_of_isSpace (h : isSpace c = true) : c.toNat < 0x80 := by
  rcases isSpace_cases h with rfl | rfl | rfl | rfl <;> decide

theorem isBlank_of_isSpace (h : isSpace c = true) : Run.isBlank (octet c) = true := by
  rcases isSpace_cases h with rfl | rfl | rfl | rfl <;> decide

theorem stop_of_isSpace (h : ∀ c ∈ text.head?, isSpace c = true) : Stop text := by
  intro c hc
  rcases isSpace_cases (h c hc) with rfl | rfl | rfl | rfl <;> decide

theorem length_le_utf8ByteSize (cs : List Char) : cs.length ≤ (String.ofList cs).utf8ByteSize := by
  induction cs with
  | nil => exact Nat.zero_le _
  | cons c cs ih =>
    have hpos := c.utf8Size_pos
    have hsize : (String.ofList [c]).utf8ByteSize = c.utf8Size := by simp
    rw [List.length_cons, ← List.singleton_append, String.ofList_append,
      String.utf8ByteSize_append, hsize]
    omega

end Text

namespace TokenKind

variable {k : TokenKind} {x : String}

/-- The spelling of a kind is a word, or a punctuator of one or two characters. -/
theorem spelling?_cases (h : k.spelling? = some x) :
    (Word x.toList ∧ ofReserved? x = some k) ∨
      (∃ c, x = String.ofList [c] ∧ single? c = some k) ∨
      ∃ c d, x = String.ofList [c, d] ∧ pair? c d = some k := by
  cases k with
  | ident | number | eof => cases h
  | typeWord | varWord | funcWord | returnWord | intWord | floatWord | boolWord | trueWord
  | falseWord | andWord | orWord =>
    cases h
    exact .inl ⟨⟨⟨_, rfl, rfl⟩, List.all_eq_true.mp rfl, by decide⟩, by decide⟩
  | semi | colon | comma | lparen | rparen | lbrace | rbrace | assign | plus | minus | star | slash
  | percent | lt | gt =>
    cases h
    exact .inr (.inl ⟨_, rfl, rfl⟩)
  | le | ge | eqEq | notEq =>
    cases h
    exact .inr (.inr ⟨_, _, rfl, rfl⟩)

theorem Prints.ascii (h : k.Prints x) : ∀ c ∈ x.toList, c.toNat < 0x80 := by
  cases h with
  | spelled h =>
    rcases spelling?_cases h with ⟨hw, -⟩ | ⟨c, rfl, hk⟩ | ⟨c, d, rfl, hk⟩
    · exact fun c hc => lt_of_isAlphanum (hw.all c hc)
    · simpa using ascii_of_single? hk
    · simpa using ascii_of_pair? hk
  | ident _ all _ _ => exact fun c hc => lt_of_isAlphanum (all c hc)
  | number _ check _ => exact fun c hc => (Numeral.continues_of_check check c hc).1

end TokenKind

namespace Stream

section
variable {st : Stream} {blanks : List UInt8} {text : List Char} (hsound : st.cursor.Sound)
  (hblanks : ∀ b ∈ blanks, Run.isBlank b = true) (htext : ∀ c ∈ text, c.toNat < 0x80)
  (hstop : ∀ c ∈ text.head?, isSpace c = true)
include hsound hblanks htext hstop

/-- A number in any accepted form is scanned whole. -/
theorem scan_of_numeral {cs : List Char}
    (hrest : st.cursor.rest = blanks ++ octets (cs ++ text))
    (hfirst : ∃ c ∈ cs.head?, c.isDigit = true) (hcheck : Numeral.check cs = .ok ())
    (hshort : cs.length ≤ runLimit) :
    st.scan = (.tokens [⟨.number, String.ofList cs, (skip (.of blanks) st).here⟩],
      (skip (.of blanks) st).behind (octets cs) (octets text)) := by
  have hcs := Numeral.continues_of_check hcheck
  have hlt (c : Char) (hc : c ∈ cs) := (hcs c hc).1
  have hr : Run.Is .number (octets cs) (octets text) := by
    obtain ⟨c, hc, hdigit⟩ := hfirst
    refine .number ⟨octet c, ?_, ?_⟩ ⟨?_, ?_⟩
    · rw [head?_octets, hc]
      rfl
    · rw [isDigit_octet (hlt c (List.mem_of_mem_head? hc)), hdigit]
    · exact List.forall_mem_map.mpr fun c hc => (hcs c hc).2
    · exact stop_octets htext (stop_of_isSpace hstop) fun c hc hs => goesOn_of_stop hc hs _
  rw [octets_append] at hrest
  obtain ⟨b, more, hclass, htake, hdrop, hscan⟩ := scan_of_is hsound hblanks hrest hr (by decide)
    ((length_octets cs).trans_le hshort)
  rw [hscan]
  simp only [read, hclass, htake, hdrop, scanNumber, ascii_octets hlt, hcheck]
  rfl

omit hsound hblanks htext in
theorem blank_octets : ∀ b ∈ (octets text).head?, Run.isBlank b = true := by
  intro b hb
  rw [head?_octets] at hb
  obtain ⟨c, hc, rfl⟩ := Option.map_eq_some_iff.mp hb
  exact isBlank_of_isSpace (hstop c hc)

theorem scan_of_single {c : Char} {k : TokenKind} (hk : TokenKind.single? c = some k)
    (hrest : st.cursor.rest = blanks ++ octets (c :: text)) :
    st.scan = (.tokens [⟨k, String.ofList [c], (skip (.of blanks) st).here⟩],
      (skip (.of blanks) st).behind (octets [c]) (octets text)) := by
  have hslash (d : Char) (hd : d ∈ text.head?) : d ≠ '/' := by
    rcases isSpace_cases (hstop d hd) with rfl | rfl | rfl | rfl <;> decide
  have hzero := Run.symbolLength_of_stop (fun b hb => .inr (blank_octets hstop b hb)) false 0
  have hdecode : decodeLossy (octets [c]) = [c] :=
    decodeLossy_octets (List.forall_mem_singleton.mpr (TokenKind.ascii_of_single? hk))
  rw [scan_of_symbol hsound hblanks htext hrest hk hslash hzero (by decide), scanSymbols,
    List.take_zero, hdecode, splitSymbols, hk]
  rfl

omit htext in
theorem scan_of_pair {c d : Char} {k : TokenKind} (hk : TokenKind.pair? c d = some k)
    (hrest : st.cursor.rest = blanks ++ octets (c :: d :: text)) :
    st.scan = (.tokens [⟨k, String.ofList [c, d], (skip (.of blanks) st).here⟩],
      (skip (.of blanks) st).behind (octets [c, d]) (octets text)) := by
  obtain ⟨rfl, hclass, hc⟩ : d = '=' ∧ Run.classify (octet c) = .symbol ∧
      Run.isAlnum (octet c) = false ∧ Run.isBlank (octet c) = false := by
    unfold TokenKind.pair? at hk
    split at hk
    all_goals first | decide | cases hk
  have hlength : Run.length (octet c :: octet '=' :: octets text) = 2 := by
    have hblank := blank_octets hstop
    have hstop' : ∀ b ∈ (octets text).head?, b ≠ Run.slash := by
      rintro b hb rfl
      exact absurd (hblank _ hb) (by decide)
    have hzero := Run.symbolLength_of_stop (fun b hb => .inr (hblank b hb)) false 0
    simp only [Run.length, hclass]
    rw [Run.symbolLength_cons hc (by rintro b ⟨⟩; decide),
      Run.symbolLength_cons (by decide) hstop', hzero]
  have hdecode : decodeLossy (octets [c, '=']) = [c, '='] := by
    have hascii := TokenKind.ascii_of_pair? hk
    exact decodeLossy_octets (by simpa using hascii)
  have hsplit (file : String) (line column : Nat) : splitSymbols file line column [c, '='] =
      ([⟨k, String.ofList [c, '='], ⟨file, line, column⟩⟩], .complete) := by
    rw [splitSymbols, if_neg fun hslash => absurd hslash.2 (by decide), hk, splitSymbols]
  rw [octets_cons, octets_cons] at hrest
  rw [scan_of_run hsound ⟨hrest, hblanks, hc.2⟩ (hlength ▸ by decide)]
  simp only [read, hclass, hlength, List.take_succ_cons, List.take_zero, List.drop_succ_cons,
    List.drop_zero, scanSymbols]
  rw [← octets_nil, ← octets_cons, ← octets_cons, hdecode, hsplit]
  rfl

/-- What is printed for a kind is scanned as one token of the kind. -/
theorem scan_of_prints {k : TokenKind} {x : String} (h : k.Prints x)
    (hrest : st.cursor.rest = blanks ++ octets (x.toList ++ text)) :
    st.scan = (.tokens [⟨k, x, (skip (.of blanks) st).here⟩],
      (skip (.of blanks) st).behind (octets x.toList) (octets text)) := by
  have hword (hw : Word x.toList) :=
    scan_of_word hsound hblanks htext hrest hw (stop_of_isSpace hstop)
  rw [String.ofList_toList, wordKind_eq, String.ofList_toList] at hword
  cases h with
  | spelled h =>
    rcases TokenKind.spelling?_cases h with ⟨hw, hk⟩ | ⟨c, rfl, hk⟩ | ⟨c, d, rfl, hk⟩
    · rw [hword hw, hk]
      rfl
    · rw [String.toList_ofList] at hrest ⊢
      exact scan_of_single hsound hblanks htext hstop hk hrest
    · rw [String.toList_ofList] at hrest ⊢
      exact scan_of_pair hsound hblanks hstop hk hrest
  | ident first all short free =>
    have hlength := length_le_utf8ByteSize x.toList
    rw [String.ofList_toList] at hlength
    have hnone : TokenKind.ofReserved? x = none := by
      rw [TokenKind.ofReserved?, Option.map_eq_none_iff, List.find?_eq_none]
      intro p hp heq
      exact free (beq_iff_eq.mp heq ▸ List.mem_map_of_mem hp)
    rw [hword ⟨first, all, hlength.trans short⟩, hnone]
    rfl
  | number first check short =>
    have hlength := length_le_utf8ByteSize x.toList
    rw [String.ofList_toList] at hlength
    have hscan := scan_of_numeral hsound hblanks htext hstop hrest first check (hlength.trans short)
    rwa [String.ofList_toList] at hscan

end

end Stream

/-- A lexeme of a kind and the blanks in front of it. -/
structure Spaced where
  blanks : String
  kind : TokenKind
  lexeme : String

namespace Spaced

/-- The lexemes with their blanks, one behind the other, and what stands behind the last of them. -/
def text (rest : String) : List Spaced → String
  | [] => rest
  | p :: ps => p.blanks ++ p.lexeme ++ text rest ps

/-- Lexemes that are printed for their kinds, with nothing but blanks in front of them. -/
structure Printed (p : Spaced) : Prop where
  blanks : ∀ c ∈ p.blanks.toList, isSpace c = true
  lexeme : p.kind.Prints p.lexeme

variable {rest : String} {ps : List Spaced}

theorem ascii_text (hps : ∀ p ∈ ps, p.Printed) (hrest : ∀ c ∈ rest.toList, isSpace c = true) :
    ∀ c ∈ (text rest ps).toList, c.toNat < 0x80 := by
  induction ps with
  | nil => exact fun c hc => lt_of_isSpace (hrest c hc)
  | cons p ps ih =>
    obtain ⟨hp, hps⟩ := List.forall_mem_cons.mp hps
    simp only [text, String.toList_append, List.forall_mem_append]
    exact ⟨⟨fun c hc => lt_of_isSpace (hp.blanks c hc), hp.lexeme.ascii⟩, ih hps⟩

/-- Blanks stand behind a lexeme if they stand in front of the next one. -/
theorem head_text (hps : ∀ p ∈ ps, p.Printed) (hgap : ∀ p ∈ ps, p.blanks ≠ "")
    (hrest : ∀ c ∈ rest.toList, isSpace c = true) :
    ∀ c ∈ (text rest ps).toList.head?, isSpace c = true := by
  cases ps with
  | nil => exact fun c hc => hrest c (List.mem_of_mem_head? hc)
  | cons p ps =>
    obtain ⟨hp, -⟩ := List.forall_mem_cons.mp hps
    obtain ⟨c, cs, hblanks⟩ : ∃ c cs, p.blanks.toList = c :: cs :=
      List.exists_cons_of_ne_nil fun hnil =>
        hgap p List.mem_cons_self (String.toList_eq_nil_iff.mp hnil)
    simp only [text, String.toList_append, hblanks, List.cons_append, List.head?_cons]
    rintro _ ⟨⟩
    exact hp.blanks c (hblanks ▸ List.mem_cons_self)

theorem gives_text {budget : Budget} (hb : budget.check = none) (hps : ∀ p ∈ ps, p.Printed)
    (hgap : ∀ p ∈ ps.tail, p.blanks ≠ "") (hrest : ∀ c ∈ rest.toList, isSpace c = true)
    {st : Stream} (pull : Nat) (hsound : st.cursor.Sound)
    (hst : st.cursor.rest = octets (text rest ps).toList) :
    st.Gives budget pull (ps.map fun p => .bare p.kind p.lexeme) := by
  induction ps generalizing st pull with
  | nil =>
    have hall : ∀ b ∈ st.cursor.rest, Run.isBlank b = true := by
      rw [hst, octets, List.forall_mem_map]
      exact fun c hc => isBlank_of_isSpace (hrest c hc)
    obtain ⟨next, hscan⟩ := Stream.scan_of_blank hsound hall
    exact Stream.gives_of_finished hb hscan
  | cons p ps ih =>
    obtain ⟨hp, hps⟩ := List.forall_mem_cons.mp hps
    have hblanks : ∀ b ∈ octets p.blanks.toList, Run.isBlank b = true := by
      rw [octets, List.forall_mem_map]
      exact fun c hc => isBlank_of_isSpace (hp.blanks c hc)
    have hsplit : st.cursor.rest =
        octets p.blanks.toList ++ octets (p.lexeme.toList ++ (text rest ps).toList) := by
      rw [hst, text, String.toList_append, String.toList_append, List.append_assoc, octets_append]
    have hscan := Stream.scan_of_prints hsound hblanks (ascii_text hps hrest)
      (head_text hps hgap hrest) hp.lexeme hsplit
    refine Stream.gives_of_tokens hb hscan ?_
    refine ih hps (fun q hq => hgap q (List.mem_of_mem_tail hq)) _ (Stream.sound_behind _ _ _) rfl

end Spaced

/-- Lexing undoes printing: lexemes with at least one blank between neighbours come out as they went
in, with their kinds and in their order, and then the end. -/
theorem lexing_undoes_printing {budget : Budget} (hb : budget.check = none) (file : String)
    {ps : List Spaced} {rest : String} (hps : ∀ p ∈ ps, p.Printed)
    (hgap : ∀ p ∈ ps.tail, p.blanks ≠ "") (hrest : ∀ c ∈ rest.toList, isSpace c = true) :
    ∃ ts, tokenize budget file (.ofBytes (Spaced.text rest ps).toUTF8.toList) = .ok ts ∧
      ts.map (fun t => (t.kind, t.lexeme)) =
        ps.map (fun p => (p.kind, p.lexeme)) ++ [(.eof, "")] := by
  have hbytes := toUTF8_ofList (Spaced.ascii_text hps hrest)
  rw [String.ofList_toList] at hbytes
  have hsound := Stream.sound_start file (Spaced.text rest ps).toUTF8.toList
  obtain ⟨ts, hts, hmoved⟩ := Spaced.gives_text hb hps hgap hrest 0 hsound hbytes
  refine ⟨ts, hts, ?_⟩
  have hpairs := congrArg (List.map fun t => (t.kind, t.lexeme)) hmoved
  rw [List.map_map, List.map_append, List.map_map] at hpairs
  exact hpairs

/-- Numbers with marks and suffixes, a pair of punctuators and two slashes that make no comment. -/
theorem lexing_undoes_printing_of_line :
    ∃ ts, tokenize .unlimited "t.src" (.ofBytes (Spaced.text "\n"
        [⟨"", .returnWord, "return"⟩, ⟨" ", .ident, "returned"⟩, ⟨"\t", .le, "<="⟩,
          ⟨"\r\n", .number, "0xBeefL"⟩, ⟨"  ", .slash, "/"⟩, ⟨" ", .slash, "/"⟩,
          ⟨" ", .number, "3.25"⟩]).toUTF8.toList) = .ok ts ∧
      ts.map (fun t => (t.kind, t.lexeme)) =
        [(.returnWord, "return"), (.ident, "returned"), (.le, "<="), (.number, "0xBeefL"),
          (.slash, "/"), (.slash, "/"), (.number, "3.25"), (.eof, "")] := by
  refine lexing_undoes_printing rfl "t.src" ?_ (by decide) (List.all_eq_true.mp rfl)
  simp only [List.forall_mem_cons, List.not_mem_nil, false_imp_iff, implies_true, and_true]
  have hblank {x : String} (h : x.toList.all isSpace = true) : ∀ c ∈ x.toList, isSpace c = true :=
    List.all_eq_true.mp h
  have hword : ∀ c ∈ "returned".toList, c.isAlphanum = true := List.all_eq_true.mp rfl
  refine ⟨⟨hblank rfl, .spelled rfl⟩,
    ⟨hblank rfl, .ident ⟨_, rfl, rfl⟩ hword (by decide) (by decide)⟩,
    ⟨hblank rfl, .spelled rfl⟩, ⟨hblank rfl, .number ⟨_, rfl, rfl⟩ (by decide) (by decide)⟩,
    ⟨hblank rfl, .spelled rfl⟩, ⟨hblank rfl, .spelled rfl⟩,
    ⟨hblank rfl, .number ⟨_, rfl, rfl⟩ (by decide) (by decide)⟩⟩

end ThreeAddress
