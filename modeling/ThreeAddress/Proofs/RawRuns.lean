import ThreeAddress.Proofs.Layout

namespace ThreeAddress

namespace Run

/-- A run as it is cut out of a source: in two slashes it ends. -/
structure Raw (cls : RunClass) (text after : List UInt8) : Prop where
  is : Is cls text after
  nonempty : text ≠ []
  slashes : ∀ front back, text = front ++ slash :: slash :: back → back = []

/-- Punctuators one behind the other. The two slashes of a comment count as such. -/
inductive Punctuated : List UInt8 → Prop
  | nil : Punctuated []
  | single {b : UInt8} {rest : List UInt8}
    (hk : (TokenKind.single? (Char.ofNat b.toNat)).isSome = true) (h : Punctuated rest) :
    Punctuated (b :: rest)
  | pair {b b' : UInt8} {rest : List UInt8}
    (hk : (TokenKind.pair? (Char.ofNat b.toNat) (Char.ofNat b'.toNat)).isSome = true)
    (h : Punctuated rest) : Punctuated (b :: b' :: rest)

/-- A run of no excessive length can be turned into tokens. -/
def Legal (cls : RunClass) (text : List UInt8) : Prop :=
  match cls with
  | .word => True
  | .number => Numeral.check (Text.ascii text) = .ok ()
  | .symbol => Punctuated text

/-- What stands between a run and the bytes behind: blanks and, if the run ends in two slashes, the
text of a comment in front of them. Such a text ends with its line. -/
inductive Gap (last : List UInt8) : (gap behind : List UInt8) → Prop
  | blanks {blanks behind : List UInt8} (hl : ¬[slash, slash] <:+ last)
    (hb : ∀ b ∈ blanks, isBlank b = true) : Gap last blanks behind
  | comment {text blanks behind : List UInt8} (hl : [slash, slash] <:+ last)
    (ht : newline ∉ text) (hb : ∀ b ∈ blanks, isBlank b = true)
    (hn : ∀ b ∈ (blanks ++ behind).head?, b = newline) : Gap last (text ++ blanks) behind

end Run

/-- The runs of a source up to a place, each of them turned into tokens: the bytes up to the end of
the last run, that run, and the bytes ahead. -/
inductive Passes (s : List UInt8) : (before last after : List UInt8) → Prop
  | start : Passes s [] [] s
  | run {before last gap text after : List UInt8} {cls : RunClass}
    (h : Passes s before last (gap ++ (text ++ after))) (hg : Run.Gap last gap (text ++ after))
    (hr : Run.Raw cls text after) (hs : text.length ≤ runLimit) (hl : Run.Legal cls text) :
    Passes s (before ++ gap ++ text) text after

/-- The first run of a source that cannot be turned into tokens is one that is too long: the bytes
up to the end of the run in front of it, what stands in between, and the run. -/
def Overlong (s before gap text : List UInt8) : Prop :=
  ∃ last cls after, Passes s before last (gap ++ (text ++ after)) ∧
    Run.Gap last gap (text ++ after) ∧ Run.Raw cls text after ∧ runLimit < text.length

/-- A source ends in a comment that no newline follows: the bytes up to its two slashes, and its
text. -/
def EndsInComment (s front text : List UInt8) : Prop :=
  ∃ last, Passes s front last text ∧ [Run.slash, Run.slash] <:+ last ∧ Run.newline ∉ text

theorem Passes.append_eq {s before last after : List UInt8} (h : Passes s before last after) :
    before ++ after = s := by
  induction h with
  | start => rfl
  | run _ _ _ _ _ ih => simpa using ih

namespace Run

variable {cls : RunClass} {text after last gap behind blanks : List UInt8}

theorem eq_nil_of_short {afterSlash : Bool} {text front back : List UInt8}
    (h : (if afterSlash then [slash] else []) ++ text = front ++ slash :: slash :: back)
    (hshort : text.length ≤ 1) : back = [] := by
  have := congrArg List.length h
  rw [← List.length_eq_zero_iff]
  cases afterSlash <;> simp at this <;> omega

/-- Two slashes end a symbol run, behind a slash or not. -/
theorem slashes_of_symbolLength (afterSlash : Bool) {input text after front back : List UInt8}
    (hsplit : input = text ++ after) (hlength : text.length = symbolLength afterSlash 0 input)
    (h : (if afterSlash then [slash] else []) ++ text = front ++ slash :: slash :: back) :
    back = [] := by
  induction input generalizing afterSlash text front with
  | nil =>
    obtain ⟨rfl, -⟩ := List.append_eq_nil_iff.mp hsplit.symm
    exact eq_nil_of_short h (Nat.zero_le 1)
  | cons b rest ih =>
    rw [symbolLength] at hlength
    split at hlength
    · exact eq_nil_of_short h (by omega)
    · split at hlength
      · exact eq_nil_of_short h (by omega)
      · next hslash =>
        rw [symbolLength_add] at hlength
        obtain ⟨b', text, rfl⟩ : ∃ b' text', text = b' :: text' :=
          List.exists_cons_of_length_pos (by omega)
        obtain ⟨rfl, hrest⟩ := List.cons.inj hsplit
        have hmore : text.length = symbolLength (b == slash) 0 rest := by
          rw [List.length_cons] at hlength
          omega
        have hnext {front' : List UInt8} (heq : text = front' ++ slash :: slash :: back) :
            back = [] :=
          @ih (b == slash) text ((if b == slash then [slash] else []) ++ front') hrest hmore
            (by rw [heq, List.append_assoc])
        cases afterSlash with
        | false =>
          cases front with
          | nil =>
            obtain ⟨rfl, rfl⟩ := List.cons.inj (h : b :: text = slash :: slash :: back)
            exact @ih true (slash :: back) [] hrest hmore rfl
          | cons x front => exact hnext (List.cons.inj h).2
        | true =>
          have hb : b ≠ slash := by simpa using hslash
          rcases front with _ | ⟨x, _ | ⟨y, front⟩⟩
          · exact absurd (List.cons.inj (List.cons.inj h).2).1 hb
          · exact absurd (List.cons.inj (List.cons.inj h).2).1 hb
          · exact hnext (List.cons.inj (List.cons.inj h).2).2

/-- Words and numbers hold no slashes. -/
theorem Is.slash_not_mem (h : Is cls text after) (hcls : cls ≠ .symbol) : slash ∉ text := by
  intro hmem
  cases h with
  | symbol => exact hcls rfl
  | word _ hm => exact absurd (hm.all _ hmem) (by decide)
  | number _ hm =>
    have hno : ∀ hex : Bool, (isDigit slash || isMarker slash || (hex && isHexDigit slash)) ≠
        true := by decide
    exact hno _ (hm.all _ hmem)

/-- The run that is cut out of an input. -/
theorem exists_raw {b : UInt8} (hb : isBlank b = false) (more : List UInt8) :
    ∃ text after, b :: more = text ++ after ∧ text.length = length (b :: more) ∧
      Raw (classify b) text after := by
  obtain ⟨text, after, hsplit, hlength, his⟩ := exists_run b more
  have hpos : 0 < text.length := hlength ▸ length_pos hb
  refine ⟨text, after, hsplit, hlength, his, List.ne_nil_of_length_pos hpos, fun front back h => ?_⟩
  by_cases hcls : classify b = .symbol
  · simp only [length, hcls] at hlength
    exact slashes_of_symbolLength false hsplit hlength h
  · refine absurd ?_ (his.slash_not_mem hcls)
    rw [h]
    simp

/-- A symbol run is not longer than another that the same input starts with. -/
theorem raw_symbol_le {text' after' : List UInt8} (h : Raw .symbol text after)
    (h' : Raw .symbol text' after') (heq : text ++ after = text' ++ after') :
    text.length ≤ text'.length := by
  by_contra hlt
  -- The byte behind the shorter one belongs to the longer one, so two slashes are in front of it.
  obtain ⟨rest, rfl⟩ : text' <+: text :=
    List.prefix_of_prefix_length_le (List.prefix_append text' after')
      (heq ▸ List.prefix_append text after) (by omega)
  rw [List.append_assoc, List.append_cancel_left_eq] at heq
  cases rest with
  | nil => simp at hlt
  | cons b rest =>
    subst heq
    cases h'.is with
    | symbol _ hstop =>
      cases h.is with
      | symbol hall _ =>
        obtain ⟨halnum, hblank⟩ := hall b (by simp)
        rcases hstop b rfl with hb | hb | ⟨front, rfl⟩
        · cases halnum.symm.trans hb
        · cases hblank.symm.trans hb
        · cases h.slashes front (b :: rest) (by simp)

/-- A run starts with no blank, and its class and its length are those that are read. -/
theorem Raw.length_eq (h : Raw cls text after) :
    ∃ b more, text ++ after = b :: more ∧ isBlank b = false ∧ classify b = cls ∧
      length (b :: more) = text.length := by
  by_cases hcls : cls = .symbol
  · subst hcls
    obtain ⟨b, rest, rfl⟩ := List.exists_cons_of_ne_nil h.nonempty
    cases hi : h.is with
    | symbol hall _ =>
      obtain ⟨halnum, hblank⟩ := hall b List.mem_cons_self
      have hclass : classify b = .symbol := by
        simp only [isAlnum, Bool.or_eq_false_iff] at halnum
        simp [classify, halnum]
      obtain ⟨text', after', hsplit, hlength, h'⟩ := exists_raw hblank (rest ++ after)
      rw [hclass] at h'
      refine ⟨b, rest ++ after, rfl, hblank, hclass, ?_⟩
      rw [← hlength]
      exact Nat.le_antisymm (raw_symbol_le h' h hsplit.symm) (raw_symbol_le h h' hsplit)
  · obtain ⟨b, more, hsplit, hclass, hlength⟩ := h.is.length_eq hcls
    exact ⟨b, more, hsplit, isBlank_of_classify (hclass.trans_ne hcls), hclass, hlength⟩

end Run

namespace Text

theorem lt_of_ofNat {b : UInt8} (h : (Char.ofNat b.toNat).toNat < 0x80) : b < 0x80 := by
  rw [toNat_ofNat_octet] at h
  exact UInt8.lt_iff_toNat_lt.mpr h

/-- An ASCII octet is read on its own. -/
theorem decodeLossy_cons {b : UInt8} (hb : b < 0x80) (rest : List UInt8) :
    decodeLossy (b :: rest) = Char.ofNat b.toNat :: decodeLossy rest := by
  rw [decodeLossy, decode, decodeFrom_cons, advance, first, if_pos hb]
  rfl

end Text

namespace Run

variable {cls : RunClass} {text after last gap behind blanks : List UInt8}

/-- All pairs end in a character that is a punctuator as well. -/
theorem punctuated_of_cons {b b' : UInt8} {rest : List UInt8}
    (hk : (TokenKind.pair? (Char.ofNat b.toNat) (Char.ofNat b'.toNat)).isSome = true)
    (h : Punctuated (b' :: rest)) : Punctuated rest := by
  have heq : Char.ofNat b'.toNat = '=' := by
    by_contra hne
    rw [TokenKind.pair?_of_ne hne] at hk
    cases hk
  cases h with
  | single _ h => exact h
  | @pair _ b'' rest hk' h =>
    have heq' : Char.ofNat b''.toNat = '=' := by
      by_contra hne
      rw [TokenKind.pair?_of_ne hne] at hk'
      cases hk'
    exact .single (by rw [heq']; rfl) h

/-- Which characters a symbol run splits into does not hang on how pairs are made. -/
theorem Punctuated.of_pair {b b' : UInt8} {rest : List UInt8}
    (hk : (TokenKind.pair? (Char.ofNat b.toNat) (Char.ofNat b'.toNat)).isSome = true)
    (h : Punctuated (b :: b' :: rest)) : Punctuated rest := by
  cases h with
  | single _ h => exact punctuated_of_cons hk h
  | pair _ h => exact h

/-- A text whose first character is in no punctuator is not made of them. -/
theorem not_punctuated {c : Char} {cs : List Char} {text : List UInt8}
    (hcs : Text.decodeLossy text = c :: cs) (hk : TokenKind.single? c = none)
    (hp : ∀ d ∈ cs.head?, TokenKind.pair? c d = none) : ¬Punctuated text := by
  intro h
  cases h with
  | nil => cases hcs
  | @single b rest hb h =>
    obtain ⟨k, hb⟩ := Option.isSome_iff_exists.mp hb
    rw [Text.decodeLossy_cons (Text.lt_of_ofNat (TokenKind.ascii_of_single? hb))] at hcs
    rw [(List.cons.inj hcs).1, hk] at hb
    cases hb
  | @pair b b' rest hb h =>
    obtain ⟨k, hb⟩ := Option.isSome_iff_exists.mp hb
    obtain ⟨hlt, hlt'⟩ := TokenKind.ascii_of_pair? hb
    rw [Text.decodeLossy_cons (Text.lt_of_ofNat hlt), Text.decodeLossy_cons (Text.lt_of_ofNat hlt')]
      at hcs
    obtain ⟨rfl, rfl⟩ := List.cons.inj hcs
    rw [hp _ rfl] at hb
    cases hb

/-- What the end of a symbol run says of it. -/
def Ends (text : List UInt8) : SymbolEnd → Prop
  | .complete => Punctuated text ∧ ¬[slash, slash] <:+ text
  | .comment => Punctuated text ∧ [slash, slash] <:+ text
  | .illegal _ _ => ¬Punctuated text

theorem ends_splitSymbols (file : String) (line column : Nat) {cs : List Char}
    {text : List UInt8} (hcs : Text.decodeLossy text = cs)
    (hslashes : ∀ front back, text = front ++ slash :: slash :: back → back = []) :
    Ends text (splitSymbols file line column cs).2 := by
  fun_induction splitSymbols file line column cs generalizing text with
  | case1 column =>
    obtain rfl := Text.eq_nil_of_decodeLossy hcs
    exact ⟨.nil, by simp⟩
  | case2 column c k hk =>
    obtain ⟨b, rest, rfl, -, rfl, hrest⟩ :=
      Text.decodeLossy_eq_ascii hcs (TokenKind.ascii_of_single? hk)
    obtain rfl := Text.eq_nil_of_decodeLossy hrest
    refine ⟨.single (by rw [hk]; rfl) .nil, fun hsuffix => ?_⟩
    exact absurd hsuffix.length_le (by simp)
  | case3 column c hk =>
    refine not_punctuated hcs hk fun d hd => ?_
    cases hd
  | case4 column c d rest hc =>
    obtain ⟨rfl, rfl⟩ := hc
    obtain ⟨rest, rfl⟩ := eq_slashes hcs
    obtain rfl := hslashes [] rest rfl
    exact ⟨.single rfl (.single rfl .nil), List.suffix_rfl⟩
  | case5 column c d cs hc k hk ts e he ih =>
    obtain ⟨b, b', rest, rfl, -, rfl, rfl, hrest⟩ := eq_pair hcs hk
    have hpair := Option.isSome_iff_exists.mpr ⟨k, hk⟩
    have hends := ih hrest fun front back heq => hslashes (b :: b' :: front) back (by rw [heq]; rfl)
    rw [he] at hends
    cases e with
    | complete =>
      exact ⟨.pair hpair hends.1, fun hsuffix => hends.2 (suffix_of_pair hk hsuffix)⟩
    | comment => exact ⟨.pair hpair hends.1, hends.2.trans (List.suffix_append [b, b'] rest)⟩
    | illegal x column' => exact fun h => hends (h.of_pair hpair)
  | case6 column c d cs hc hp k hk ts e he ih =>
    obtain ⟨b, rest, rfl, -, rfl, hrest⟩ :=
      Text.decodeLossy_eq_ascii hcs (TokenKind.ascii_of_single? hk)
    have hsingle := Option.isSome_iff_exists.mpr ⟨k, hk⟩
    have hends := ih hrest fun front back heq => hslashes (b :: front) back (by rw [heq]; rfl)
    rw [he] at hends
    cases e with
    | complete =>
      exact ⟨.single hsingle hends.1, fun hsuffix => hends.2 (suffix_of_single hc hrest hsuffix)⟩
    | comment => exact ⟨.single hsingle hends.1, hends.2.trans (List.suffix_cons b rest)⟩
    | illegal x column' =>
      intro h
      cases h with
      | single _ h => exact hends h
      | @pair _ b' rest hk' h =>
        obtain ⟨k', hk'⟩ := Option.isSome_iff_exists.mp hk'
        rw [Text.decodeLossy_cons (Text.lt_of_ofNat (TokenKind.ascii_of_pair? hk').2)] at hrest
        rw [(List.cons.inj hrest).1, hp] at hk'
        cases hk'
  | case7 column c d cs hc hp hk =>
    refine not_punctuated hcs hk fun x hx => ?_
    obtain rfl := Option.some.inj hx
    exact hp

/-- The bytes that are read on behind a run: two slashes drop the rest of their line. -/
def ahead (last after : List UInt8) : List UInt8 :=
  if [slash, slash] <:+ last then after.dropWhile (· != newline) else after

/-- A gap is the text of a comment, if there is one, and the blanks that are read. -/
theorem Gap.split (h : Gap last gap behind) :
    ∃ text blanks, gap = text ++ blanks ∧ newline ∉ text ∧ (∀ b ∈ blanks, isBlank b = true) ∧
      (text = [] ∨ [slash, slash] <:+ last ∧ ∀ b ∈ (blanks ++ behind).head?, b = newline) ∧
      ahead last (gap ++ behind) = blanks ++ behind := by
  cases h with
  | blanks hl hb => exact ⟨[], gap, rfl, List.not_mem_nil, hb, .inl rfl, if_neg hl⟩
  | @comment text blanks _ hl ht hb hn =>
    refine ⟨text, blanks, rfl, ht, hb, .inr ⟨hl, hn⟩, ?_⟩
    have hline : (blanks ++ behind).dropWhile (· != newline) = blanks ++ behind := by
      cases hrest : blanks ++ behind with
      | nil => rfl
      | cons b rest =>
        rw [hrest] at hn
        simp [hn b rfl]
    rw [ahead, if_pos hl, List.append_assoc,
      List.dropWhile_append_of_pos (forall_bne_of_not_mem ht), hline]

theorem Gap.ahead_ne_nil (h : Gap last gap (text ++ after)) (hr : Raw cls text after) :
    ahead last (gap ++ (text ++ after)) ≠ [] := by
  obtain ⟨comment, blanks, -, -, -, -, hahead⟩ := h.split
  rw [hahead]
  simp [hr.nonempty]

theorem exists_gap (h : ahead last after = blanks ++ behind)
    (hb : ∀ b ∈ blanks, isBlank b = true) :
    ∃ gap, after = gap ++ behind ∧ Gap last gap behind := by
  unfold ahead at h
  split at h
  · next hl =>
    refine ⟨after.takeWhile (· != newline) ++ blanks, ?_, .comment hl ?_ hb ?_⟩
    · rw [List.append_assoc, ← h, List.takeWhile_append_dropWhile]
    · exact newline_not_mem_line after
    · rw [← h]
      exact head?_of_line after
  · next hl => exact ⟨blanks, h, .blanks hl hb⟩

/-- Behind a run there is another one, or nothing but a gap. -/
theorem exists_next (last after : List UInt8) :
    Gap last after [] ∨ ∃ gap cls text after', after = gap ++ (text ++ after') ∧
      Gap last gap (text ++ after') ∧ Raw cls text after' := by
  have hmax := maximal_takeWhile isBlank (ahead last after)
  have hsplit : ahead last after =
      (ahead last after).takeWhile isBlank ++ (ahead last after).dropWhile isBlank :=
    List.takeWhile_append_dropWhile.symm
  obtain ⟨gap, hafter, hgap⟩ := exists_gap hsplit hmax.all
  cases hdrop : (ahead last after).dropWhile isBlank with
  | nil =>
    rw [hdrop] at hafter hgap
    rw [List.append_nil] at hafter
    exact .inl (hafter ▸ hgap)
  | cons b more =>
    have hb : isBlank b = false := hmax.stop b (by rw [hdrop]; rfl)
    obtain ⟨text, after', hmore, -, hraw⟩ := exists_raw hb more
    rw [hdrop, hmore] at hafter hgap
    exact .inr ⟨gap, _, text, after', hafter, hgap, hraw⟩

end Run

end ThreeAddress
