import ThreeAddress.Json.Printer
import ThreeAddress.Json.Reader
import ThreeAddress.Proofs.Digits

namespace ThreeAddress

namespace Text

/-- The octets of a text. -/
def utf8 (s : String) : List UInt8 := s.toUTF8.toList

@[simp] theorem utf8_append (s t : String) : utf8 (s ++ t) = utf8 s ++ utf8 t := by
  simp only [utf8, toList_eq, String.toUTF8, String.toByteArray_append, ByteArray.data_append,
    Array.toList_append]

@[simp] theorem utf8_empty : utf8 "" = [] := by decide +kernel

@[simp] theorem utf8_comma : utf8 "," = [0x2c] := by decide +kernel

@[simp] theorem utf8_colon : utf8 ":" = [0x3a] := by decide +kernel

@[simp] theorem utf8_brackets : utf8 "[" = [0x5b] ∧ utf8 "]" = [0x5d] := by decide +kernel

@[simp] theorem utf8_braces : utf8 "\x7b" = [0x7b] ∧ utf8 "\x7d" = [0x7d] := by decide +kernel

end Text

namespace Numeral

variable {n : Nat}

theorem lt_of_mem_toDigits {c : Char} (h : c ∈ Nat.toDigits 10 n) : c.toNat < 0x80 :=
  Text.lt_of_isAlphanum (isAlphanum_of_isDigit (isDigit_of_mem (by decide) (by decide) c h))

/-- The digits of a positive number begin with none that is zero. -/
theorem head_toDigits_ne (hn : 0 < n) : ∀ c ∈ (Nat.toDigits 10 n).head?, c ≠ '0' := by
  induction n using Nat.strongRecOn with
  | ind n ih =>
    intro c hc
    rw [Nat.toDigits_eq_if (by decide)] at hc
    split at hc
    · next hlt =>
      have hall : ∀ d : Fin 10, 0 < d.val → Nat.digitChar d ≠ '0' := by decide
      cases hc
      exact hall ⟨n, hlt⟩ hn
    · next hge =>
      have hne : Nat.toDigits 10 (n / 10) ≠ [] := Nat.toDigits_ne_nil
      rw [List.head?_append_of_ne_nil _ hne] at hc
      exact ih (n / 10) (by omega) (by omega) c hc

end Numeral

namespace Json

mutual

theorem write_eq (out : String) : ∀ j, write out j = out ++ compact j
  | .null => by simp [compact, write]
  | .bool b => by simp [compact, write]
  | .number l => by simp [compact, write]
  | .string s => by simp [compact, write]
  | .array es => by
    rw [compact, write, write, writeElements_eq (out ++ "["), writeElements_eq ("" ++ "[")]
    simp [String.append_assoc]
  | .object ms => by
    rw [compact, write, write, writeMembers_eq (out ++ "\x7b"), writeMembers_eq ("" ++ "\x7b")]
    simp [String.append_assoc]

theorem writeElements_eq (out : String) (first : Bool) :
    ∀ es, writeElements out first es = out ++ writeElements "" first es
  | [] => by simp [writeElements]
  | e :: es => by
    rw [writeElements, writeElements, writeElements_eq (write _ e), write_eq _ e,
      writeElements_eq (write (if first then "" else _) e), write_eq (if first then "" else _) e]
    cases first <;> simp [String.append_assoc]

theorem writeMembers_eq (out : String) (first : Bool) :
    ∀ ms, writeMembers out first ms = out ++ writeMembers "" first ms
  | [] => by simp [writeMembers]
  | (k, v) :: ms => by
    rw [writeMembers, writeMembers, writeMembers_eq (write _ v), write_eq _ v,
      writeMembers_eq (write ((if first then "" else _) ++ _ ++ _) v),
      write_eq ((if first then "" else _) ++ _ ++ _) v]
    cases first <;> simp [String.append_assoc]

end

/-- The bytes that a value is written with. -/
def bytes (j : Json) : List UInt8 := Text.utf8 j.compact

/-- Values behind one another. -/
def joined : List (List UInt8) → List UInt8
  | [] => []
  | o :: os => o ++ os.flatMap (0x2c :: ·)

theorem utf8_writeElements (es : List Json) :
    Text.utf8 (writeElements "" false es) = (es.map bytes).flatMap (0x2c :: ·) := by
  induction es with
  | nil => simp [writeElements]
  | cons e es ih =>
    rw [writeElements, writeElements_eq, write_eq]
    simp [ih, bytes]

theorem bytes_array (es : List Json) :
    (Json.array es).bytes = 0x5b :: joined (es.map bytes) ++ [0x5d] := by
  rw [bytes, compact, write, writeElements_eq]
  cases es with
  | nil => simp [writeElements, joined, -String.reduceAppend]
  | cons e es =>
    rw [writeElements, writeElements_eq, write_eq]
    simp [utf8_writeElements, joined, bytes]

/-- Written as it is between the quotes. -/
def isPlain (c : Char) : Bool := 0x20 ≤ c.toNat && c.toNat < 0x80 && c != '"' && c != '\\'

/-- A text of plain characters between quotes. -/
def quoted (s : String) : List UInt8 := 0x22 :: Text.octets s.toList ++ [0x22]

def memberBytes (m : String × Json) : List UInt8 := quoted m.1 ++ 0x3a :: m.2.bytes

section
variable {c : Char} {s : String} {ms : List (String × Json)}

theorem lt_of_isPlain (h : isPlain c = true) : c.toNat < 0x80 := by
  simp only [isPlain, Bool.and_eq_true, decide_eq_true_eq] at h
  exact h.1.1.2

theorem escapeChar_of_isPlain (h : isPlain c = true) : escapeChar c = [c] :=
  Text.forall_ascii (p := fun c => isPlain c = true → escapeChar c = [c]) (by decide)
    (lt_of_isPlain h) h

theorem utf8_quote (h : ∀ c ∈ s.toList, isPlain c = true) : Text.utf8 (quote s) = quoted s := by
  have hescape : s.toList.flatMap escapeChar = s.toList := by
    rw [List.flatMap_congr fun c hc => escapeChar_of_isPlain (h c hc), List.flatMap_singleton']
  rw [Text.utf8, quote, hescape, Text.toUTF8_ofList, quoted]
  · simp [Text.octet]
  · rw [List.forall_mem_append, List.forall_mem_cons, List.forall_mem_singleton]
    exact ⟨⟨by decide, fun c hc => lt_of_isPlain (h c hc)⟩, by decide⟩

theorem utf8_writeMembers (h : ∀ m ∈ ms, ∀ c ∈ m.1.toList, isPlain c = true) :
    Text.utf8 (writeMembers "" false (ms.map fun (k, v) => (some k, v))) =
      (ms.map memberBytes).flatMap (0x2c :: ·) := by
  induction ms with
  | nil => simp [writeMembers]
  | cons m ms ih =>
    obtain ⟨hm, hms⟩ := List.forall_mem_cons.mp h
    rw [List.map_cons, writeMembers, writeMembers_eq, write_eq]
    simp [ih hms, quoteText, utf8_quote hm, memberBytes, bytes]

theorem bytes_ofObject (h : ∀ m ∈ ms, ∀ c ∈ m.1.toList, isPlain c = true) :
    (ofObject ms).bytes = 0x7b :: joined (ms.map memberBytes) ++ [0x7d] := by
  rw [bytes, compact, ofObject, write, writeMembers_eq]
  cases ms with
  | nil => simp [writeMembers, joined, -String.reduceAppend]
  | cons m ms =>
    obtain ⟨hm, hms⟩ := List.forall_mem_cons.mp h
    rw [List.map_cons, writeMembers, writeMembers_eq, write_eq]
    simp [utf8_writeMembers hms, quoteText, utf8_quote hm, memberBytes, bytes, joined]

theorem bytes_ofText (h : ∀ c ∈ s.toList, isPlain c = true) : (ofText s).bytes = quoted s := by
  simp [bytes, compact, ofText, write, quoteText, utf8_quote h]

theorem bytes_ofNat (n : Nat) : (ofNat n).bytes = Text.octets (Nat.toDigits 10 n) := by
  have hrepr : toString n = String.ofList (Nat.toDigits 10 n) := Nat.repr_eq_ofList_toDigits
  rw [bytes, compact, ofNat, write, hrepr, Text.utf8_append, Text.utf8_empty, List.nil_append,
    Text.utf8, Text.toUTF8_ofList fun c => Numeral.lt_of_mem_toDigits]

end

/-- Ends a number in front. -/
def Stops (rest : List UInt8) : Prop :=
  ∀ b ∈ rest.head?, isDigit b = false ∧ b ≠ 0x2e ∧ b ≠ 0x65 ∧ b ≠ 0x45

/-- The value is read from the bytes that it is written with, whatever stops it behind them. -/
structure Reads (j : Json) : Prop where
  first : ∃ b ∈ j.bytes.head?, isSpace b = false ∧ b ≠ 0x5d
  read : ∀ {fuel rest}, 2 * j.bytes.length ≤ fuel → Stops rest →
    readValue fuel (j.bytes ++ rest) = some (j, rest)

section
variable {b : UInt8} {rest : List UInt8} {fuel : Nat}

theorem skipSpace_cons (h : isSpace b = false) : skipSpace (b :: rest) = b :: rest := by
  rw [skipSpace, List.dropWhile_cons_of_neg (by simp [h])]

theorem digits_append {ds : List UInt8} (hne : ds ≠ []) (hds : ∀ b ∈ ds, isDigit b = true)
    (hrest : Stops rest) : digits (ds ++ rest) = some (ds, rest) := by
  have htake : rest.takeWhile isDigit = [] := by
    cases rest with
    | nil => rfl
    | cons b rest => simp [(hrest b rfl).1]
  have hdrop : rest.dropWhile isDigit = rest := by
    cases rest with
    | nil => rfl
    | cons b rest => simp [(hrest b rfl).1]
  rw [digits, List.takeWhile_append_of_pos hds, List.dropWhile_append_of_pos hds, htake, hdrop,
    List.append_nil]
  cases ds with
  | nil => exact absurd rfl hne
  | cons d ds => rfl

theorem fractionPart_of_stops (h : Stops rest) : fractionPart rest = some ([], rest) := by
  unfold fractionPart
  split
  · exact absurd rfl (h _ rfl).2.1
  · rfl

theorem exponentPart_of_stops (h : Stops rest) : exponentPart rest = some ([], rest) := by
  unfold exponentPart
  split
  · next e s rest =>
    have := (h e rfl).2.2
    simp [this]
  · next e =>
    have := (h e rfl).2.2
    simp [this]
  · rfl

/-- A number is read when its digits begin with no zero, or are that alone. -/
theorem readNumber_digits {ds : List UInt8} (hne : ds ≠ []) (hds : ∀ b ∈ ds, isDigit b = true)
    (hzero : ds = [0x30] ∨ ∀ b ∈ ds.head?, b ≠ 0x30) (hrest : Stops rest) :
    readNumber (ds ++ rest) = some (String.ofList (Text.ascii ds), rest) := by
  have hwhole : integerPart (ds ++ rest) = some (ds, rest) := by
    rcases hzero with rfl | hzero
    · have hdigit : (rest.head?.map isDigit).getD false = false := by
        cases rest with
        | nil => rfl
        | cons b rest => exact (hrest b rfl).1
      simp [integerPart, hdigit]
    · rw [integerPart, digits_append hne hds hrest]
      intro tail htail
      cases ds with
      | nil => exact absurd rfl hne
      | cons d ds => exact hzero d rfl (List.cons.inj htail).1
  have hsign : ∀ tail, ds ++ rest ≠ 0x2d :: tail := by
    intro tail htail
    cases ds with
    | nil => exact absurd rfl hne
    | cons d ds =>
      have hd := hds d List.mem_cons_self
      rw [(List.cons.inj htail).1] at hd
      cases hd
  unfold readNumber
  split
  next sign tail hmatch =>
  split at hmatch
  · next tail' heq => exact absurd heq (hsign tail')
  · cases hmatch
    rw [hwhole]
    simp [fractionPart_of_stops hrest, exponentPart_of_stops hrest]

theorem not_space_of_isDigit (h : isDigit b = true) : isSpace b = false := by
  simp only [isSpace, Bool.or_eq_false_iff, beq_eq_false_iff_ne]
  refine ⟨⟨⟨?_, ?_⟩, ?_⟩, ?_⟩ <;> rintro rfl <;> cases h

theorem readValue_digit (h : isDigit b = true) :
    readValue (fuel + 1) (b :: rest) =
      (readNumber (b :: rest)).map fun (l, rest) => (.number l, rest) := by
  have hmarks : b ≠ 0x22 ∧ b ≠ 0x5b ∧ b ≠ 0x7b ∧ b ≠ 0x74 ∧ b ≠ 0x66 ∧ b ≠ 0x6e := by
    refine ⟨?_, ?_, ?_, ?_, ?_, ?_⟩ <;> rintro rfl <;> cases h
  obtain ⟨hquote, hbracket, hbrace, htrue, hfalse, hnull⟩ := hmarks
  rw [readValue, skipSpace_cons (not_space_of_isDigit h)]
  split
  · next heq => cases heq
  · next heq => exact absurd (List.cons.inj heq).1 hquote
  · next heq => exact absurd (List.cons.inj heq).1 hbracket
  · next heq => exact absurd (List.cons.inj heq).1 hbrace
  · next heq =>
    cases heq
    simp [htrue, hfalse, hnull]

theorem isDigit_of_mem_bytes (n : Nat) : ∀ b ∈ (ofNat n).bytes, isDigit b = true := by
  rw [bytes_ofNat, Text.octets, List.forall_mem_map]
  intro c hc
  have hdigit := Numeral.isDigit_of_mem (by decide) (by decide) c hc
  exact Text.forall_ascii (p := fun c => c.isDigit = true → isDigit (Text.octet c) = true)
    (by decide) (Numeral.lt_of_mem_toDigits hc) hdigit

theorem bytes_ofNat_zero (n : Nat) :
    (ofNat n).bytes = [0x30] ∨ ∀ b ∈ (ofNat n).bytes.head?, b ≠ 0x30 := by
  rw [bytes_ofNat]
  rcases Nat.eq_zero_or_pos n with rfl | hn
  · exact .inl rfl
  · right
    intro b hb hzero
    rw [Text.head?_octets] at hb
    obtain ⟨c, hc, rfl⟩ := Option.map_eq_some_iff.mp hb
    have hchar := Text.ofNat_octet (Numeral.lt_of_mem_toDigits (List.mem_of_mem_head? hc))
    rw [hzero] at hchar
    exact Numeral.head_toDigits_ne hn c hc hchar.symm

theorem reads_ofNat (n : Nat) : Reads (ofNat n) := by
  have hds := isDigit_of_mem_bytes n
  have htext : String.ofList (Text.ascii (ofNat n).bytes) = toString n := by
    rw [bytes_ofNat, Text.ascii_octets fun c => Numeral.lt_of_mem_toDigits]
    exact Nat.repr_eq_ofList_toDigits.symm
  obtain ⟨b, tail, hbytes⟩ : ∃ b tail, (ofNat n).bytes = b :: tail := by
    apply List.exists_cons_of_ne_nil
    rw [bytes_ofNat, Text.octets, ne_eq, List.map_eq_nil_iff]
    exact Nat.toDigits_ne_nil
  have hb : isDigit b = true := hds b (hbytes ▸ List.mem_cons_self)
  refine ⟨⟨b, by rw [hbytes]; rfl, not_space_of_isDigit hb, ?_⟩, ?_⟩
  · rintro rfl
    cases hb
  · intro fuel rest hfuel hrest
    have hne : (ofNat n).bytes ≠ [] := hbytes ▸ List.cons_ne_nil b tail
    have hnumber := readNumber_digits hne hds (bytes_ofNat_zero n) hrest
    rw [htext, hbytes, List.cons_append] at hnumber
    rw [hbytes, List.length_cons] at hfuel
    obtain ⟨fuel, rfl⟩ : ∃ k, fuel = k + 1 := ⟨fuel - 1, by omega⟩
    rw [hbytes, List.cons_append, readValue_digit hb, hnumber]
    rfl

theorem pieces_append {acc : List Piece} {bs : List UInt8}
    (h : ∀ b ∈ bs, 0x20 ≤ b ∧ b ≠ 0x22 ∧ b ≠ 0x5c) :
    pieces acc (bs ++ 0x22 :: rest) = some (acc.reverse ++ bs.map .byte, rest) := by
  induction bs generalizing acc with
  | nil => simp [pieces]
  | cons b bs ih =>
    obtain ⟨⟨hlow, hquote, hslash⟩, hbs⟩ := List.forall_mem_cons.mp h
    have hpieces : pieces acc (b :: (bs ++ 0x22 :: rest)) =
        pieces (.byte b :: acc) (bs ++ 0x22 :: rest) := by
      rw [pieces]
      · simp [hslash, UInt8.not_lt.mpr hlow]
      · exact hquote
      · intro _ _ _ _ _ hb
        exact absurd hb hslash
      · intro _ _ hb
        exact absurd hb hslash
    rw [List.cons_append, hpieces, ih hbs]
    simp

theorem assemble_bytes (acc bs : List UInt8) :
    assemble acc (bs.map .byte) = some (acc.reverse ++ bs) := by
  induction bs generalizing acc with
  | nil => simp [assemble]
  | cons b bs ih => simp [assemble, ih]

theorem readText_quoted {s : String} (h : ∀ c ∈ s.toList, isPlain c = true) :
    readText (Text.octets s.toList ++ 0x22 :: rest) = some (some s, rest) := by
  have hascii : ∀ c ∈ s.toList, c.toNat < 0x80 := fun c hc => lt_of_isPlain (h c hc)
  have hbytes : ∀ b ∈ Text.octets s.toList, 0x20 ≤ b ∧ b ≠ 0x22 ∧ b ≠ 0x5c := by
    rw [Text.octets, List.forall_mem_map]
    intro c hc
    exact Text.forall_ascii (p := fun c => isPlain c = true →
      0x20 ≤ Text.octet c ∧ Text.octet c ≠ 0x22 ∧ Text.octet c ≠ 0x5c) (by decide)
      (hascii c hc) (h c hc)
  have hdecode : Text.decodeStrict? (Text.octets s.toList) = some s.toList := by
    rw [Text.decodeStrict?, Text.decode_ascii _ (Text.lt_of_mem_octets hascii),
      Text.ascii_octets hascii, List.mapM_map]
    simpa using List.mapM_pure (m := Option) (l := s.toList) (f := id)
  have htext : textOf ((Text.octets s.toList).map .byte) = some s := by
    simp [textOf, assemble_bytes, hdecode]
  simp [readText, pieces_append hbytes, htext]

theorem reads_ofText {s : String} (h : ∀ c ∈ s.toList, isPlain c = true) : Reads (ofText s) := by
  constructor
  · rw [bytes_ofText h]
    exact ⟨0x22, rfl, rfl, by decide⟩
  · intro fuel rest hfuel _
    rw [bytes_ofText h, quoted, List.cons_append, List.length_cons] at hfuel
    obtain ⟨fuel, rfl⟩ : ∃ k, fuel = k + 1 := ⟨fuel - 1, by omega⟩
    rw [bytes_ofText h, quoted, List.append_assoc, List.cons_append, readValue, skipSpace_cons rfl]
    simp [readText_quoted h, ofText]

theorem stops_cons (h : isDigit b = false ∧ b ≠ 0x2e ∧ b ≠ 0x65 ∧ b ≠ 0x45) :
    Stops (b :: rest) := by
  rintro _ ⟨⟩
  exact h

/-- The elements that are still to read come behind those that are collected. -/
theorem readElements_joined {e : Json} {es acc : List Json} (he : Reads e) (hes : ∀ e ∈ es, Reads e)
    (hfuel : 2 * (joined ((e :: es).map bytes)).length + 1 ≤ fuel) :
    readElements fuel acc (joined ((e :: es).map bytes) ++ 0x5d :: rest) =
      some (.array (acc.reverse ++ e :: es), rest) := by
  induction es generalizing e acc fuel with
  | nil =>
    simp only [List.map_cons, List.map_nil, joined, List.flatMap_nil, List.append_nil] at hfuel ⊢
    obtain ⟨fuel, rfl⟩ : ∃ k, fuel = k + 1 := ⟨fuel - 1, by omega⟩
    rw [readElements, he.read (by omega) (stops_cons (by decide))]
    simp [skipSpace_cons (b := 0x5d) rfl]
  | cons e' es ih =>
    obtain ⟨he', hes⟩ := List.forall_mem_cons.mp hes
    have hjoined : joined ((e :: e' :: es).map bytes) =
        e.bytes ++ 0x2c :: joined ((e' :: es).map bytes) := by
      simp [joined]
    rw [hjoined, List.length_append, List.length_cons] at hfuel
    obtain ⟨fuel, rfl⟩ : ∃ k, fuel = k + 1 := ⟨fuel - 1, by omega⟩
    rw [hjoined, List.append_assoc, List.cons_append, readElements,
      he.read (by omega) (stops_cons (by decide))]
    simp only [skipSpace_cons (b := 0x2c) rfl]
    rw [ih he' hes (by omega)]
    simp

theorem reads_array {es : List Json} (h : ∀ e ∈ es, Reads e) : Reads (.array es) := by
  constructor
  · rw [bytes_array]
    exact ⟨0x5b, rfl, rfl, by decide⟩
  · intro fuel rest hfuel _
    rw [bytes_array, List.length_append, List.length_cons, List.length_singleton] at hfuel
    obtain ⟨fuel, rfl⟩ : ∃ k, fuel = k + 1 := ⟨fuel - 1, by omega⟩
    rw [bytes_array, List.append_assoc, List.cons_append, readValue, skipSpace_cons rfl]
    cases es with
    | nil => simp [joined, skipSpace_cons (b := 0x5d) rfl]
    | cons e es =>
      obtain ⟨he, hes⟩ := List.forall_mem_cons.mp h
      obtain ⟨b, hb, hspace, hclose⟩ := he.first
      obtain ⟨tail, htail⟩ : ∃ tail, joined ((e :: es).map bytes) = b :: tail := by
        obtain ⟨tail, htail⟩ := List.head?_eq_some_iff.mp hb
        exact ⟨_, by rw [List.map_cons, joined, htail, List.cons_append]⟩
      have hread : readElements fuel [] (joined ((e :: es).map bytes) ++ 0x5d :: rest) =
          some (.array (e :: es), rest) := readElements_joined he hes (by omega)
      rw [htail, List.cons_append] at hread
      simp only [htail, List.cons_append, skipSpace_cons hspace]
      split
      · next heq => exact absurd (List.cons.inj heq).1 hclose
      · exact hread

/-- One member in front of a comma or the closing brace. -/
theorem readMembers_member {m : String × Json} {acc : List (Option String × Json)}
    (hkey : ∀ c ∈ m.1.toList, isPlain c = true) (hm : Reads m.2)
    (hfuel : 2 * (memberBytes m).length ≤ fuel) (hrest : Stops rest) :
    readMembers (fuel + 1) acc (memberBytes m ++ rest) =
      match skipSpace rest with
      | 0x2c :: rest => readMembers fuel ((some m.1, m.2) :: acc) rest
      | 0x7d :: rest => some (.object ((some m.1, m.2) :: acc).reverse, rest)
      | _ => none := by
  rw [memberBytes, List.length_append, List.length_cons] at hfuel
  simp only [memberBytes, quoted, List.cons_append, List.append_assoc, List.nil_append, readMembers,
    skipSpace_cons (b := 0x22) rfl, skipSpace_cons (b := 0x3a) rfl, readText_quoted hkey]
  rewrite [hm.read (by omega) hrest]
  rfl

theorem readMembers_joined {m : String × Json} {ms : List (String × Json)}
    {acc : List (Option String × Json)}
    (hkeys : ∀ m' ∈ m :: ms, ∀ c ∈ m'.1.toList, isPlain c = true)
    (hm : Reads m.2) (hms : ∀ m ∈ ms, Reads m.2)
    (hfuel : 2 * (joined ((m :: ms).map memberBytes)).length + 1 ≤ fuel) :
    readMembers fuel acc (joined ((m :: ms).map memberBytes) ++ 0x7d :: rest) =
      some (.object (acc.reverse ++ (m :: ms).map fun (k, v) => (some k, v)), rest) := by
  induction ms generalizing m acc fuel with
  | nil =>
    obtain ⟨hkey, -⟩ := List.forall_mem_cons.mp hkeys
    simp only [List.map_cons, List.map_nil, joined, List.flatMap_nil, List.append_nil] at hfuel ⊢
    obtain ⟨fuel, rfl⟩ : ∃ k, fuel = k + 1 := ⟨fuel - 1, by omega⟩
    rw [readMembers_member hkey hm (by omega) (stops_cons (by decide))]
    simp [skipSpace_cons (b := 0x7d) rfl]
  | cons m' ms ih =>
    obtain ⟨hkey, hkeys⟩ := List.forall_mem_cons.mp hkeys
    obtain ⟨hm', hms⟩ := List.forall_mem_cons.mp hms
    have hjoined : joined ((m :: m' :: ms).map memberBytes) =
        memberBytes m ++ 0x2c :: joined ((m' :: ms).map memberBytes) := by
      simp [joined]
    rw [hjoined, List.length_append, List.length_cons] at hfuel
    obtain ⟨fuel, rfl⟩ : ∃ k, fuel = k + 1 := ⟨fuel - 1, by omega⟩
    rw [hjoined, List.append_assoc, List.cons_append,
      readMembers_member hkey hm (by omega) (stops_cons (by decide))]
    simp only [skipSpace_cons (b := 0x2c) rfl]
    rw [ih hkeys hm' hms (by omega)]
    simp

theorem reads_ofObject {ms : List (String × Json)}
    (hkeys : ∀ m ∈ ms, ∀ c ∈ m.1.toList, isPlain c = true) (h : ∀ m ∈ ms, Reads m.2) :
    Reads (ofObject ms) := by
  constructor
  · rw [bytes_ofObject hkeys]
    exact ⟨0x7b, rfl, rfl, by decide⟩
  · intro fuel rest hfuel _
    rw [bytes_ofObject hkeys, List.length_append, List.length_cons, List.length_singleton] at hfuel
    obtain ⟨fuel, rfl⟩ : ∃ k, fuel = k + 1 := ⟨fuel - 1, by omega⟩
    rw [bytes_ofObject hkeys, List.append_assoc, List.cons_append, readValue, skipSpace_cons rfl]
    cases ms with
    | nil => simp [joined, skipSpace_cons (b := 0x7d) rfl, ofObject]
    | cons m ms =>
      obtain ⟨hm, hms⟩ := List.forall_mem_cons.mp h
      obtain ⟨tail, htail⟩ : ∃ tail, joined ((m :: ms).map memberBytes) = 0x22 :: tail :=
        ⟨_, rfl⟩
      have hread : readMembers fuel [] (joined ((m :: ms).map memberBytes) ++ 0x7d :: rest) =
          some (ofObject (m :: ms), rest) := readMembers_joined hkeys hm hms (by omega)
      rw [htail, List.cons_append] at hread
      simp only [htail, List.cons_append, skipSpace_cons (b := 0x22) rfl]
      exact hread

end

/-- Natural numbers and texts without escapes, in arrays and objects. -/
inductive Plain : Json → Prop
  | number (n : Nat) : Plain (ofNat n)
  | text {s : String} (h : ∀ c ∈ s.toList, isPlain c = true) : Plain (ofText s)
  | array {es : List Json} (h : ∀ e ∈ es, Plain e) : Plain (.array es)
  | object {ms : List (String × Json)} (hkeys : ∀ m ∈ ms, ∀ c ∈ m.1.toList, isPlain c = true)
    (h : ∀ m ∈ ms, Plain m.2) : Plain (ofObject ms)

theorem Plain.reads {j : Json} (h : j.Plain) : j.Reads := by
  induction h with
  | number n => exact reads_ofNat n
  | text h => exact reads_ofText h
  | array _ ih => exact reads_array ih
  | object hkeys _ ih => exact reads_ofObject hkeys ih

/-- A plain document is read back from the bytes that it is written with. -/
theorem Plain.parse?_compact {j : Json} (h : j.Plain) :
    parse? j.compact.toUTF8.toList = some j := by
  have hread : readValue (2 * j.bytes.length + 2) (j.bytes ++ []) = some (j, []) :=
    h.reads.read (by omega) nofun
  rw [List.append_nil] at hread
  rw [parse?]
  simp only [show j.compact.toUTF8.toList = j.bytes from rfl, hread]
  rfl

end Json

end ThreeAddress
