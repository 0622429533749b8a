import ThreeAddress.Proofs.Decoding
import ThreeAddress.Proofs.Lexeme
import ThreeAddress.Proofs.Scan
import ThreeAddress.Proofs.WordSet

namespace ThreeAddress

/-- The lexeme in UTF-8. -/
def Token.bytes (t : Token) : List UInt8 := t.lexeme.toList.flatMap String.utf8EncodeChar

/-- A character is a punctuator of its own in front of the given bytes: they neither make a pair
with it nor a comment. -/
structure Run.Lone (c : Char) (after : List UInt8) : Prop where
  pair : ∀ b ∈ after.head?, TokenKind.pair? c (Char.ofNat b.toNat) = none
  comment : c = '/' → after.head? ≠ some Run.slash

/-- A token that no longer one could stand for, in front of the given bytes. -/
inductive Token.Longest (t : Token) (after : List UInt8) : Prop
  | word (hr : Run.Is .word t.bytes after)
    (hk : t.kind = (TokenKind.ofReserved? t.lexeme).getD .ident) : Longest t after
  | number (hr : Run.Is .number t.bytes after) (hk : t.kind = .number)
    (hc : Numeral.check t.lexeme.toList = .ok ()) : Longest t after
  | pair {c d : Char} (hl : t.lexeme = String.ofList [c, d])
    (hk : TokenKind.pair? c d = some t.kind) : Longest t after
  | single {c : Char} (hl : t.lexeme = String.ofList [c]) (hk : TokenKind.single? c = some t.kind)
    (ha : Run.Lone c after) : Longest t after

/-- The bytes that are read, the tokens among them and the bytes ahead: blanks, comments that run to
the end of their line, and lexemes, one behind the other. -/
inductive Tiles (file : String) (s : List UInt8) : List UInt8 → List Token → List UInt8 → Prop
  | start : Tiles file s [] [] s
  | blank {before after : List UInt8} {ts : List Token} {b : UInt8}
    (h : Tiles file s before ts (b :: after)) (hb : Run.isBlank b = true) :
    Tiles file s (before ++ [b]) ts after
  | comment {before text after : List UInt8} {ts : List Token}
    (h : Tiles file s before ts (Run.slash :: Run.slash :: text ++ after))
    (ht : Run.newline ∉ text) (ha : ∀ b ∈ after.head?, b = Run.newline) :
    Tiles file s (before ++ Run.slash :: Run.slash :: text) ts after
  | token {before after : List UInt8} {ts : List Token} {t : Token}
    (h : Tiles file s before ts (t.bytes ++ after)) (ht : t.Longest after)
    (hs : t.site = .behind file before) : Tiles file s (before ++ t.bytes) (ts ++ [t]) after

namespace TokenKind

theorem ascii_of_single? {c : Char} {k : TokenKind} (h : single? c = some k) : c.toNat < 0x80 := by
  unfold single? at h
  split at h
  all_goals first | decide | cases h

theorem ascii_of_pair? {c d : Char} {k : TokenKind} (h : pair? c d = some k) :
    c.toNat < 0x80 ∧ d.toNat < 0x80 := by
  unfold pair? at h
  split at h
  all_goals first | decide | cases h

theorem pair?_of_ne {c d : Char} (h : d ≠ '=') : pair? c d = none := by
  unfold pair?
  split
  all_goals first | exact absurd rfl h | rfl

/-- Only `!` is the first half of a pair and no punctuator. -/
theorem pair?_of_single? {c : Char} (h : single? c = none) (hc : c ≠ '!') (d : Char) :
    pair? c d = none := by
  unfold pair?
  split
  all_goals first | exact absurd rfl hc | cases h | rfl

end TokenKind

theorem wordKind_eq (word : List Char) :
    wordKind word = (TokenKind.ofReserved? (String.ofList word)).getD .ident := by
  have hcontains := WordTree.contains_reserved_eq (String.ofList word)
  rw [String.toList_ofList] at hcontains
  rw [wordKind, hcontains]
  cases TokenKind.ofReserved? (String.ofList word) <;> rfl

namespace Run

theorem lt_of_isAlnum {b : UInt8} (h : isAlnum b = true) : b < 0x80 := by
  simp only [isAlnum, isLetter, isDigit, Bool.or_eq_true, Bool.and_eq_true, decide_eq_true_eq,
    UInt8.le_iff_toNat_le, UInt8.lt_iff_toNat_lt] at h ⊢
  simp at h ⊢
  omega

theorem lt_of_continuesNumber {text : List UInt8} {b : UInt8} (h : continuesNumber text b = true) :
    b < 0x80 := by
  simp only [continuesNumber, isMarker, isHexDigit, isDigit, Bool.or_eq_true, Bool.and_eq_true,
    decide_eq_true_eq, beq_iff_eq, ← UInt8.toNat_inj, UInt8.le_iff_toNat_le,
    UInt8.lt_iff_toNat_lt] at h ⊢
  simp at h ⊢
  omega

theorem newline_not_mem_line (input : List UInt8) :
    newline ∉ input.takeWhile (· != newline) := by
  intro hmem
  have := (maximal_takeWhile (· != newline) input).all _ hmem
  simp at this

theorem head?_of_line (input : List UInt8) :
    ∀ b ∈ (input.dropWhile (· != newline)).head?, b = newline := by
  intro b hb
  simpa using (maximal_takeWhile (· != newline) input).stop b hb

end Run

namespace Tiles

variable {file : String} {s before after : List UInt8} {us : List Token}

theorem append_eq (h : Tiles file s before us after) : before ++ after = s := by
  induction h with
  | start => rfl
  | blank _ _ ih => simpa using ih
  | comment _ _ _ ih => simpa using ih
  | token _ _ _ ih => simpa using ih

theorem blanks {bytes : List UInt8} (h : Tiles file s before us (bytes ++ after))
    (hb : ∀ b ∈ bytes, Run.isBlank b = true) : Tiles file s (before ++ bytes) us after := by
  induction bytes generalizing before with
  | nil => simpa using h
  | cons b bytes ih =>
    obtain ⟨hb, hbs⟩ := List.forall_mem_cons.mp hb
    simpa using ih (h.blank hb) hbs

/-- A comment, up to the end of its line. -/
theorem line {text : List UInt8}
    (h : Tiles file s before us (Run.slash :: Run.slash :: text ++ after))
    (ht : Run.newline ∉ text) :
    Tiles file s (before ++ Run.slash :: Run.slash :: text ++ after.takeWhile (· != Run.newline)) us
      (after.dropWhile (· != Run.newline)) := by
  have hsplit : text ++ after = (text ++ after.takeWhile (· != Run.newline)) ++
      after.dropWhile (· != Run.newline) := by
    rw [List.append_assoc, List.takeWhile_append_dropWhile]
  have hline : Run.newline ∉ text ++ after.takeWhile (· != Run.newline) :=
    fun hmem => (List.mem_append.mp hmem).elim ht (Run.newline_not_mem_line after)
  rw [List.cons_append, List.cons_append, hsplit] at h
  rw [List.append_assoc]
  exact h.comment hline (Run.head?_of_line after)

/-- The next token, written out. -/
theorem next (h : Tiles file s before us after) {text rest : List UInt8} {t : Token}
    (hafter : after = text ++ rest) (hb : t.bytes = text) (ht : t.Longest rest)
    (hs : t.site = .behind file before) : Tiles file s (before ++ text) (us ++ [t]) rest := by
  subst hafter hb
  exact h.token ht hs

end Tiles

namespace Token

theorem bytes_of_ascii {t : Token} {text : List UInt8}
    (hl : t.lexeme = String.ofList (Text.ascii text)) (h : ∀ b ∈ text, b < 0x80) :
    t.bytes = text := by
  rw [bytes, hl, String.toList_ofList, Text.encode_ascii h]

end Token

namespace Run

/-- What a character is followed by in its run decides as the byte does. -/
theorem lone_of_cons {c d : Char} {ds : List Char} {bytes after : List UInt8}
    (h : Text.decodeLossy bytes = d :: ds) (hp : TokenKind.pair? c d = none)
    (hc : ¬(c = '/' ∧ d = '/')) : Lone c (bytes ++ after) := by
  cases bytes with
  | nil => cases h
  | cons b bytes =>
    have hd (x : Char) (hx : x.toNat < 0x80) (hb : Char.ofNat b.toNat = x) : d = x := by
      have hlt : b < 0x80 := by
        have := Text.toNat_ofNat_octet b
        rw [hb] at this
        rw [UInt8.lt_iff_toNat_lt, ← this]
        exact hx
      rw [Text.decodeLossy, Text.decode, Text.decodeFrom_cons, Text.advance, Text.first,
        if_pos hlt] at h
      exact ((List.cons.inj h).1.symm.trans hb)
    constructor
    · intro b' hb'
      obtain rfl : b = b' := Option.some.inj hb'
      by_cases heq : Char.ofNat b.toNat = '='
      · rw [heq]
        exact hd '=' (by decide) heq ▸ hp
      · exact TokenKind.pair?_of_ne heq
    · intro hslash hb
      obtain rfl : b = slash := Option.some.inj hb
      exact hc ⟨hslash, hd '/' (by decide) rfl⟩

/-- A letter, a digit and a blank make neither a pair nor a comment. -/
theorem lone_of_stop {c : Char} {after : List UInt8}
    (h : ∀ b ∈ after.head?, isAlnum b = true ∨ isBlank b = true) : Lone c after := by
  constructor
  · intro b hb
    apply TokenKind.pair?_of_ne
    intro heq
    have hb' : b = 0x3d := by
      have := Text.toNat_ofNat_octet b
      rw [heq] at this
      exact UInt8.toNat_inj.mp this.symm
    subst hb'
    exact absurd (h _ hb) (by decide)
  · intro _ hb
    exact absurd (h _ hb) (by decide)

/-- The last character of a run is alone. -/
theorem lone_of_last {c : Char} {bytes after : List UInt8} (hcs : Text.decodeLossy bytes = [c])
    (hc : c.toNat < 0x80)
    (hstop : ∀ b ∈ after.head?, isAlnum b = true ∨ isBlank b = true ∨ [slash, slash] <:+ bytes) :
    Lone c after := by
  obtain ⟨b, rest, rfl, -, -, hrest⟩ := Text.decodeLossy_eq_ascii hcs hc
  obtain rfl := Text.eq_nil_of_decodeLossy hrest
  refine lone_of_stop fun x hx => ?_
  rcases hstop x hx with hx | hx | hsuffix
  · exact .inl hx
  · exact .inr hx
  · exact absurd hsuffix.length_le (by simp)

theorem lone_of_illegal {c : Char} {bytes after : List UInt8} (hcs : Text.decodeLossy bytes = [c])
    (hk : TokenKind.single? c = none)
    (hstop : ∀ b ∈ after.head?, isAlnum b = true ∨ isBlank b = true ∨ [slash, slash] <:+ bytes) :
    Lone c after := by
  by_cases hc : c = '!'
  · subst hc
    exact lone_of_last hcs (by decide) hstop
  · refine ⟨fun b _ => TokenKind.pair?_of_single? hk hc _, ?_⟩
    rintro rfl
    cases hk

theorem newline_not_mem {text : List UInt8}
    (h : ∀ b ∈ text, isAlnum b = false ∧ isBlank b = false) : newline ∉ text := by
  intro hmem
  exact absurd (h newline hmem).2 (by decide)

theorem Is.newline_not_mem {cls : RunClass} {text after : List UInt8} (h : Is cls text after) :
    newline ∉ text := by
  intro hmem
  cases h with
  | word hf hm => exact absurd (hm.all _ hmem) (by decide)
  | number hf hm =>
    have hno : ∀ hex : Bool, (isDigit newline || isMarker newline ||
        (hex && isHexDigit newline)) ≠ true := by decide
    exact hno _ (hm.all _ hmem)
  | symbol hm hstop => exact Run.newline_not_mem hm hmem

section
variable {b b' : UInt8} {rest bytes : List UInt8} {c d : Char} {cs : List Char} {k : TokenKind}

theorem eq_slashes (h : Text.decodeLossy bytes = '/' :: '/' :: cs) :
    ∃ rest, bytes = slash :: slash :: rest := by
  obtain ⟨b, rest, rfl, -, hb, hrest⟩ := Text.decodeLossy_eq_ascii h (by decide)
  obtain ⟨b', rest', rfl, -, hb', -⟩ := Text.decodeLossy_eq_ascii hrest (by decide)
  obtain rfl : b = slash := Text.octet_inj hb
  obtain rfl : b' = slash := Text.octet_inj hb'
  exact ⟨rest', rfl⟩

theorem eq_pair (h : Text.decodeLossy bytes = c :: d :: cs) (hk : TokenKind.pair? c d = some k) :
    ∃ b b' rest, bytes = b :: b' :: rest ∧ (b < 0x80 ∧ b' < 0x80) ∧ Char.ofNat b.toNat = c ∧
      Char.ofNat b'.toNat = d ∧ Text.decodeLossy rest = cs := by
  obtain ⟨hc, hd⟩ := TokenKind.ascii_of_pair? hk
  obtain ⟨b, _, rfl, hlt, hb, hsecond⟩ := Text.decodeLossy_eq_ascii h hc
  obtain ⟨b', rest, rfl, hlt', hb', hrest⟩ := Text.decodeLossy_eq_ascii hsecond hd
  exact ⟨b, b', rest, rfl, ⟨hlt, hlt'⟩, hb, hb', hrest⟩

theorem suffix_of_cons (h : [slash, slash] <:+ b :: rest) (hne : b :: rest ≠ [slash, slash]) :
    [slash, slash] <:+ rest :=
  (List.suffix_cons_iff.mp h).resolve_left (Ne.symm hne)

theorem suffix_of_pair (hk : TokenKind.pair? c (Char.ofNat b'.toNat) = some k)
    (h : [slash, slash] <:+ b :: b' :: rest) : [slash, slash] <:+ rest := by
  have hslash : b' ≠ slash := by
    rintro rfl
    rw [TokenKind.pair?_of_ne (by decide)] at hk
    cases hk
  have hsecond := suffix_of_cons h fun heq => hslash (List.cons.inj (List.cons.inj heq).2).1
  exact suffix_of_cons hsecond fun heq => hslash (List.cons.inj heq).1

theorem suffix_of_single (hc : ¬(Char.ofNat b.toNat = '/' ∧ d = '/'))
    (hrest : Text.decodeLossy rest = d :: cs) (h : [slash, slash] <:+ b :: rest) :
    [slash, slash] <:+ rest := by
  refine suffix_of_cons h fun heq => ?_
  obtain ⟨rfl, rfl⟩ := List.cons.inj heq
  exact hc ⟨rfl, (List.cons.inj hrest).1.symm⟩

end

/-- Where the tokens of a symbol run end: nowhere, at two slashes, or at a character that starts no
token. -/
def EndsAt (rest after : List UInt8) (site : Site) : SymbolEnd → Prop
  | .complete => rest = []
  | .comment => ∃ more, rest = slash :: slash :: more
  | .illegal c column => ∃ text more, rest = text ++ more ∧ text ≠ [] ∧
    Text.decodeLossy text = [c] ∧ TokenKind.single? c = none ∧ Lone c (more ++ after) ∧
    site.column = column

end Run

section Symbols
variable {file : String} {line column : Nat} {c d : Char} {cs : List Char} {k : TokenKind}
  {s before bytes after : List UInt8} {us : List Token}
open Run

theorem site_step (hsite : Site.behind file before = ⟨file, line, column⟩) {text : List UInt8}
    (ht : newline ∉ text) :
    Site.behind file (before ++ text) = ⟨file, line, column + text.length⟩ := by
  rw [Site.behind_append file before ht, hsite]

/-- A punctuator of one character comes out as a token. -/
theorem tiles_single (hcs : Text.decodeLossy bytes = c :: cs) (hk : TokenKind.single? c = some k)
    (hsite : Site.behind file before = ⟨file, line, column⟩)
    (hlone : ∀ b rest, bytes = b :: rest → Text.decodeLossy rest = cs → Lone c (rest ++ after))
    (h : Tiles file s before us (bytes ++ after)) :
    ∃ b rest, bytes = b :: rest ∧ Char.ofNat b.toNat = c ∧ Text.decodeLossy rest = cs ∧
      Tiles file s (before ++ [b]) (us ++ [⟨k, String.ofList [c], ⟨file, line, column⟩⟩])
        (rest ++ after) := by
  obtain ⟨b, rest, rfl, hlt, rfl, hrest⟩ :=
    Text.decodeLossy_eq_ascii hcs (TokenKind.ascii_of_single? hk)
  refine ⟨b, rest, rfl, rfl, hrest, h.next rfl ?_ ?_ hsite.symm⟩
  · exact Token.bytes_of_ascii rfl (List.forall_mem_singleton.mpr hlt)
  · exact .single rfl hk (hlone b rest rfl hrest)

theorem tiles_pair (hcs : Text.decodeLossy bytes = c :: d :: cs)
    (hk : TokenKind.pair? c d = some k) (hsite : Site.behind file before = ⟨file, line, column⟩)
    (h : Tiles file s before us (bytes ++ after)) :
    ∃ b b' rest, bytes = b :: b' :: rest ∧ Char.ofNat b'.toNat = d ∧ Text.decodeLossy rest = cs ∧
      Tiles file s (before ++ [b, b']) (us ++ [⟨k, String.ofList [c, d], ⟨file, line, column⟩⟩])
        (rest ++ after) := by
  obtain ⟨b, b', rest, rfl, ⟨hlt, hlt'⟩, rfl, rfl, hrest⟩ := eq_pair hcs hk
  refine ⟨b, b', rest, rfl, rfl, hrest, h.next rfl ?_ (.pair rfl hk) hsite.symm⟩
  exact Token.bytes_of_ascii rfl (by simp [hlt, hlt'])

/-- The tokens of a symbol run stand one behind the other up to where the run ends. -/
theorem tiles_splitSymbols (hcs : Text.decodeLossy bytes = cs)
    (hsite : Site.behind file before = ⟨file, line, column⟩)
    (hall : ∀ b ∈ bytes, isAlnum b = false ∧ isBlank b = false)
    (hstop : ∀ b ∈ after.head?, isAlnum b = true ∨ isBlank b = true ∨ [slash, slash] <:+ bytes)
    (h : Tiles file s before us (bytes ++ after)) :
    ∃ text rest, bytes = text ++ rest ∧
      Tiles file s (before ++ text) (us ++ (splitSymbols file line column cs).1) (rest ++ after) ∧
      EndsAt rest after (.behind file (before ++ text)) (splitSymbols file line column cs).2 := by
  fun_induction splitSymbols file line column cs generalizing before us bytes with
  | case1 column =>
    obtain rfl := Text.eq_nil_of_decodeLossy hcs
    exact ⟨[], [], rfl, by simpa using h, rfl⟩
  | case2 column c k hk =>
    have hlast := lone_of_last hcs (TokenKind.ascii_of_single? hk) hstop
    have hlone (b : UInt8) (rest : List UInt8) (_ : bytes = b :: rest)
        (hrest : Text.decodeLossy rest = []) : Lone c (rest ++ after) := by
      obtain rfl := Text.eq_nil_of_decodeLossy hrest
      exact hlast
    obtain ⟨b, rest, rfl, -, hrest, hnext⟩ := tiles_single hcs hk hsite hlone h
    obtain rfl := Text.eq_nil_of_decodeLossy hrest
    exact ⟨[b], [], rfl, hnext, rfl⟩
  | case3 column c hk =>
    have hne : bytes ≠ [] := by
      rintro rfl
      cases hcs
    refine ⟨[], bytes, rfl, by simpa using h, bytes, [], by simp, hne, hcs, hk, ?_, ?_⟩
    · exact lone_of_illegal hcs hk hstop
    · simp [hsite]
  | case4 column c d rest hc =>
    obtain ⟨rfl, rfl⟩ := hc
    obtain ⟨rest, rfl⟩ := eq_slashes hcs
    exact ⟨[], _, rfl, by simpa using h, rest, rfl⟩
  | case5 column c d cs hc k hk ts e he ih =>
    obtain ⟨b, b', rest, rfl, rfl, hrest, hnext⟩ := tiles_pair hcs hk hsite h
    have hline : newline ∉ [b, b'] := newline_not_mem fun x hx =>
      hall x (List.mem_append_left rest hx)
    have hstop' : ∀ x ∈ after.head?,
        isAlnum x = true ∨ isBlank x = true ∨ [slash, slash] <:+ rest :=
      fun x hx => (hstop x hx).imp_right (Or.imp_right (suffix_of_pair hk))
    obtain ⟨text, rest', rfl, htiles, hends⟩ := ih hrest (site_step hsite hline)
      (fun x hx => hall x (by simp [hx])) hstop' hnext
    rw [he] at htiles hends
    exact ⟨b :: b' :: text, rest', rfl, by simpa using htiles, by simpa using hends⟩
  | case6 column c d cs hc hp k hk ts e he ih =>
    obtain ⟨b, rest, rfl, rfl, hrest, hnext⟩ := tiles_single hcs hk hsite
      (fun b rest _ hrest => lone_of_cons hrest hp hc) h
    have hline : newline ∉ [b] := newline_not_mem fun x hx =>
      hall x (List.mem_append_left rest hx)
    have hstop' : ∀ x ∈ after.head?,
        isAlnum x = true ∨ isBlank x = true ∨ [slash, slash] <:+ rest :=
      fun x hx => (hstop x hx).imp_right (Or.imp_right (suffix_of_single hc hrest))
    obtain ⟨text, rest', rfl, htiles, hends⟩ := ih hrest (site_step hsite hline)
      (fun x hx => hall x (by simp [hx])) hstop' hnext
    rw [he] at htiles hends
    exact ⟨b :: text, rest', rfl, by simpa using htiles, by simpa using hends⟩
  | case7 column c d cs hc hp hk =>
    obtain ⟨text, more, rfl, hne, htext, hmore⟩ := Text.decodeLossy_split hcs
    refine ⟨[], text ++ more, rfl, by simpa using h, text, more, rfl, hne, htext, hk, ?_, ?_⟩
    · exact lone_of_cons hmore hp hc
    · simp [hsite]

end Symbols

namespace Stream

/-- A stream stands between the bytes read and those ahead. Behind a comment its column is not
counted on, but there the line ends. -/
structure Stands (st : Stream) (file : String) (before after : List UInt8) : Prop where
  name : st.file = file
  rest : st.cursor.rest = after
  sound : st.cursor.Sound
  line : st.line = (Site.behind file before).line
  column : st.column = (Site.behind file before).column ∨ ∀ b ∈ after.head?, b = Run.newline

variable {st : Stream} {file : String} {s before after : List UInt8} {us : List Token}

/-- Counting blanks moves a stream behind them, unless they end an uncounted line. -/
theorem skip_blanks {blanks : List UInt8} (hfile : st.file = file)
    (hline : st.line = (Site.behind file before).line)
    (hcolumn : st.column = (Site.behind file before).column ∨ Run.newline ∈ blanks) :
    (skip (.of blanks) st).here = .behind file (before ++ blanks) := by
  by_cases hb : Run.newline ∈ blanks
  · have hpos : 0 < (Blank.of blanks).newlines := List.count_pos_iff.mpr hb
    rw [Site.behind_append_of_mem file before hb, skip, if_pos hpos, here, hfile, hline]
  · have hzero : ¬0 < (Blank.of blanks).newlines := by
      rw [Blank.of, List.count_eq_zero.mpr hb]
      exact Nat.lt_irrefl 0
    have hindent : (Blank.of blanks).indent = blanks.length := by
      simpa [Blank.of] using congrArg Blank.indent (Blank.of_append_of_not_mem [] hb)
    rw [Site.behind_append file before hb, skip, if_neg hzero, here, hfile, hline,
      hcolumn.resolve_right hb, hindent]
    rfl

variable (after) in
/-- A stream that has counted blanks goes on behind a text without newlines. -/
theorem stands_behind {text : List UInt8} (hhere : st.here = .behind file before)
    (ht : Run.newline ∉ text) :
    Stands ⟨⟨after, none, after.isEmpty, .none⟩, st.file, st.line, st.column + text.length⟩ file
      (before ++ text) after := by
  have hsite := Site.behind_append file before ht
  rw [← hhere] at hsite
  refine ⟨congrArg Site.file hhere, rfl, ⟨rfl, rfl, List.isEmpty_iff.mp⟩, ?_, .inl ?_⟩
  · rw [hsite]
    rfl
  · rw [hsite]
    rfl

end Stream

/-- What an error says of a source: it stands at a number that is malformed as far as it reaches or
at a character that starts no token, or there is a run too long to be read, or the budget is used
up. -/
def LexError.Placed (e : LexError) (budget : Budget) (file : String) (s : List UInt8) : Prop :=
  match e.fault with
  | .malformedNumber lexeme fault => ∃ before us text after,
    Tiles file s before us (text ++ after) ∧ Run.Is .number text after ∧
      lexeme = String.ofList (Text.ascii text) ∧ Numeral.check lexeme.toList = .error fault ∧
      e.site = .behind file before
  | .illegalCharacter c => ∃ before us text after,
    Tiles file s before us (text ++ after) ∧ text ≠ [] ∧ Text.decodeLossy text = [c] ∧
      (∀ b ∈ text, Run.isAlnum b = false ∧ Run.isBlank b = false) ∧
      TokenKind.single? c = none ∧ Run.Lone c after ∧ e.site = .behind file before
  | .tooLong => ∃ before us b more,
    Tiles file s before us (b :: more) ∧ runLimit < Run.length (b :: more)
  | .unreadable _ => False
  | .exhausted x => budget.check = some x

namespace Stream

variable {budget : Budget} {st : Stream} {file : String} {s before after text : List UInt8}
  {us : List Token}

/-- What reading a run leads to. -/
def Leads (budget : Budget) (file : String) (s : List UInt8) (us : List Token) : Scanned × Stream → Prop
  | (.tokens ts, st) => ∃ before after,
    st.Stands file before after ∧ Tiles file s before (us ++ ts) after
  | (.finished eof, _) => eof.kind = .eof ∧ Tiles file s s us []
  | (.failed e _, _) => e.Placed budget file s

theorem leads_word (h : Tiles file s before us (text ++ after)) (hr : Run.Is .word text after)
    (hst : st.Stands file (before ++ text) after) :
    Leads budget file s us (scanWord (.behind file before) text, st) := by
  cases hr with
  | word hf hm =>
    have hascii : ∀ b ∈ text, b < 0x80 := fun b hb => Run.lt_of_isAlnum (hm.all b hb)
    refine ⟨_, _, hst, h.next rfl (Token.bytes_of_ascii rfl hascii) ?_ rfl⟩
    have hbytes := Token.bytes_of_ascii
      (t := ⟨wordKind (Text.ascii text), String.ofList (Text.ascii text), .behind file before⟩)
      rfl hascii
    exact .word (hbytes.symm ▸ .word hf hm) (wordKind_eq _)

theorem leads_number (h : Tiles file s before us (text ++ after)) (hr : Run.Is .number text after)
    (hst : st.Stands file (before ++ text) after) :
    Leads budget file s us (scanNumber (.behind file before) text, st) := by
  unfold scanNumber
  simp only
  split
  · next hc =>
    have hascii : ∀ b ∈ text, b < 0x80 := by
      cases hr with
      | number hf hm => exact fun b hb => Run.lt_of_continuesNumber (hm.all b hb)
    have hbytes := Token.bytes_of_ascii
      (t := ⟨.number, String.ofList (Text.ascii text), .behind file before⟩) rfl hascii
    refine ⟨_, _, hst, h.next rfl hbytes ?_ rfl⟩
    exact .number (hbytes.symm ▸ hr) rfl (by rw [String.toList_ofList]; exact hc)
  · next fault hc =>
    exact ⟨_, _, _, _, h, hr, rfl, by rw [String.toList_ofList]; exact hc, rfl⟩

/-- A comment leaves the stream at the end of its line. -/
theorem stands_skipLine (hst : st.Stands file before after) :
    ∃ c, st.cursor.skipLine = (.ok (), c) ∧
      Stands { st with cursor := c } file (before ++ after.takeWhile (· != Run.newline))
        (after.dropWhile (· != Run.newline)) := by
  obtain ⟨c, hc, hsound, hrest⟩ := hst.sound.skipLine
  rw [hst.rest] at hrest
  refine ⟨c, hc, hst.name, hrest, hsound, ?_, .inr (Run.head?_of_line after)⟩
  rw [Site.behind_append file before (Run.newline_not_mem_line after)]
  exact hst.line

/-- A symbol run gives its tokens, or a fault at the first character that starts none. -/
theorem leads_symbols (h : Tiles file s before us (text ++ after))
    (hr : Run.Is .symbol text after) (hst : st.Stands file (before ++ text) after) :
    Leads budget file s us (scanSymbols (.behind file before) text st) := by
  obtain ⟨hall, hstop⟩ : (∀ b ∈ text, Run.isAlnum b = false ∧ Run.isBlank b = false) ∧
      ∀ b ∈ after.head?, Run.isAlnum b = true ∨ Run.isBlank b = true ∨
        [Run.slash, Run.slash] <:+ text := by
    cases hr with
    | symbol hm hstop => exact ⟨hm, hstop⟩
  obtain ⟨line, column, hsite⟩ : ∃ line column, Site.behind file before = ⟨file, line, column⟩ :=
    ⟨_, _, rfl⟩
  obtain ⟨done, rest, rfl, htiles, hends⟩ := tiles_splitSymbols rfl hsite hall hstop h
  rw [hsite, scanSymbols]
  simp only
  split
  · next hcomplete =>
    rw [hcomplete] at hends
    obtain rfl : rest = [] := hends
    exact ⟨_, _, by simpa using hst, by simpa using htiles⟩
  · next hcomment =>
    rw [hcomment] at hends
    obtain ⟨more, rfl⟩ := hends
    obtain ⟨c, hskip, hstands⟩ := stands_skipLine hst
    rw [hskip]
    refine ⟨_, _, hstands, ?_⟩
    have hmore : Run.newline ∉ more := Run.newline_not_mem fun b hb => hall b (by simp [hb])
    simpa using htiles.line hmore
  · next c column' hillegal =>
    rw [hillegal] at hends
    obtain ⟨bad, more, rfl, hne, hbad, hk, hlone, hcolumn⟩ := hends
    refine ⟨before ++ done, _, bad, more ++ after, by simpa using htiles, hne, hbad, ?_, hk, hlone,
      ?_⟩
    · exact fun b hb => hall b (by simp [hb])
    · have hline : Run.newline ∉ done := Run.newline_not_mem fun b hb => hall b (by simp [hb])
      rw [← hcolumn, Site.behind_append file before hline, hsite]

/-- A run leads on along the source. -/
theorem leads_read {b : UInt8} {more : List UInt8} (hhere : st.here = .behind file before)
    (h : Tiles file s before us (b :: more)) : Leads budget file s us (read b more st) := by
  obtain ⟨text, after, hsplit, hlength, hr⟩ := Run.exists_run b more
  have htake : (b :: more).take (Run.length (b :: more)) = text := by
    rw [← hlength, hsplit, List.take_left]
  have hdrop : (b :: more).drop (Run.length (b :: more)) = after := by
    rw [← hlength, hsplit, List.drop_left]
  have hstands := stands_behind after hhere hr.newline_not_mem
  rw [hsplit] at h
  unfold read
  simp only [htake, hdrop, hhere]
  cases hclass : Run.classify b with
  | word => exact leads_word h (hclass ▸ hr) hstands
  | number => exact leads_number h (hclass ▸ hr) hstands
  | symbol => exact leads_symbols h (hclass ▸ hr) hstands

/-- One scan leads on along the source. -/
theorem leads_scan (hst : st.Stands file before after) (h : Tiles file s before us after) :
    Leads budget file s us st.scan := by
  obtain rfl := hst.rest
  rcases scan_cases hst.sound with ⟨hblank, _, hscan⟩ | ⟨blanks, b, more, hahead, hrun⟩
  · have hall : Tiles file s (before ++ st.cursor.rest) us [] := Tiles.blanks (by simpa using h) hblank
    rw [hscan]
    exact ⟨rfl, h.append_eq ▸ hall⟩
  · have hskipped := (hahead.rest ▸ h).blanks hahead.blanks
    -- An uncounted line ends with the first of the blanks.
    have hcolumn : st.column = (Site.behind file before).column ∨ Run.newline ∈ blanks := by
      refine hst.column.imp_right fun hhead => ?_
      rw [hahead.rest] at hhead
      cases blanks with
      | nil =>
        obtain rfl : b = Run.newline := hhead b rfl
        cases hahead.first.symm.trans Run.isBlank_newline
      | cons b' blanks =>
        obtain rfl : b' = Run.newline := hhead b' rfl
        exact List.mem_cons_self
    rcases hrun with ⟨-, hscan⟩ | ⟨hlong, _, hscan⟩
    · rw [hscan]
      exact leads_read (skip_blanks hst.name hst.line hcolumn) hskipped
    · rw [hscan]
      exact ⟨_, _, _, _, hskipped, hlong⟩

variable (budget) in
/-- Along the stream all tokens stand on the source, up to the end or the first error. -/
theorem tiles_items (pull : Nat) (hst : st.Stands file before after)
    (h : Tiles file s before us after) :
    match (st.items (fun _ => budget) pull).mapM id with
    | .ok ts => ∃ (vs : List Token) (eof : Token), ts = vs ++ [eof] ∧ eof.kind = .eof ∧
        Tiles file s s (us ++ vs) []
    | .error e => e.Placed budget file s := by
  fun_induction items (fun _ => budget) pull st generalizing before after us with
  | case1 pull st e he => exact he
  | case2 pull st he ts st' hscan ih =>
    have hlead : Leads budget file s us st.scan := leads_scan hst h
    rw [hscan] at hlead
    obtain ⟨before', after', hst', h'⟩ := hlead
    have hrest := ih hst' h'
    rw [mapM_id_append]
    cases hm : (items (fun _ => budget) (pull + ts.length) st').mapM id with
    | error e =>
      rw [hm] at hrest
      exact hrest
    | ok rest =>
      rw [hm] at hrest
      obtain ⟨vs, eof, rfl, heof, htiles⟩ := hrest
      refine ⟨ts ++ vs, eof, ?_, heof, ?_⟩
      · simp
      · rwa [List.append_assoc] at htiles
  | case3 pull st he eof st' hscan =>
    have hlead : Leads budget file s us st.scan := leads_scan hst h
    rw [hscan] at hlead
    exact ⟨[], eof, rfl, hlead.1, by simpa using hlead.2⟩
  | case4 pull st he e ts st' hscan =>
    have hlead : Leads budget file s us st.scan := leads_scan hst h
    rw [hscan] at hlead
    exact hlead

theorem stands_start (file : String) (s : List UInt8) :
    Stands (start file (.ofBytes s)) file [] s where
  name := rfl
  rest := rfl
  sound := sound_start file s
  line := rfl
  column := .inl rfl

end Stream

/-- Lexemes are never empty, so no token among them is the end. -/
theorem Token.Longest.kind_ne_eof {t : Token} {after : List UInt8} (h : t.Longest after) :
    t.kind ≠ .eof := by
  intro heof
  cases h with
  | word hr hk =>
    cases hres : TokenKind.ofReserved? t.lexeme with
    | none =>
      rw [hres, heof] at hk
      cases hk
    | some k =>
      rw [hres, heof] at hk
      obtain rfl : TokenKind.eof = k := hk
      have := TokenKind.spelling?_of_ofReserved? hres
      cases this
  | number hr hk hc => rw [heof] at hk; cases hk
  | pair hl hk =>
    have := TokenKind.spelling?_of_pair? hk
    rw [heof] at this
    cases this
  | single hl hk ha =>
    have := TokenKind.spelling?_of_single? hk
    rw [heof] at this
    cases this

theorem Tiles.kind_ne_eof {file : String} {s before after : List UInt8} {us : List Token}
    (h : Tiles file s before us after) : ∀ t ∈ us, t.kind ≠ .eof := by
  induction h with
  | start => exact List.forall_mem_nil _
  | blank _ _ ih => exact ih
  | comment _ _ _ ih => exact ih
  | token _ ht _ ih =>
    exact List.forall_mem_append.mpr ⟨ih, List.forall_mem_singleton.mpr ht.kind_ne_eof⟩

/-- Lexing is lossless, positioned and maximal, and its errors name their place. -/
theorem tokenize_tiles (budget : Budget) (file : String) (s : List UInt8) :
    match tokenize budget file (.ofBytes s) with
    | .ok ts => ∃ us eof, ts = us ++ [eof] ∧ eof.kind = .eof ∧ (∀ t ∈ us, t.kind ≠ .eof) ∧
      Tiles file s s us []
    | .error e => e.Placed budget file s := by
  have hitems := Stream.tiles_items budget 0 (Stream.stands_start file s) .start
  unfold tokenize
  cases hm : ((Stream.start file (.ofBytes s)).items (fun _ => budget) 0).mapM id with
  | error e =>
    rw [hm] at hitems
    exact hitems
  | ok ts =>
    rw [hm] at hitems
    obtain ⟨us, eof, hts, heof, htiles⟩ := hitems
    exact ⟨us, eof, hts, heof, htiles.kind_ne_eof, htiles⟩

end ThreeAddress
