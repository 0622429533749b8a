import ThreeAddress.Token.Stream

namespace ThreeAddress

structure Token.Lexical (t : Token) : Prop where
  ident : t.kind = .ident → ∀ c ∈ t.lexeme.toList, c.isAlphanum = true
  number : t.kind = .number → Numeral.check t.lexeme.toList = .ok ()

namespace Run

theorem isAlphanum_of_isAlnum {b : UInt8} (h : isAlnum b = true) :
    (Char.ofNat b.toNat).isAlphanum = true := by
  have hv : (Char.ofNat b.toNat).val.toNat = b.toNat := by
    have := b.toNat_lt
    rw [Char.ofNat, dif_pos (by simp [Nat.isValidChar]; omega)]
    rfl
  simp only [isAlnum, isLetter, isDigit, Bool.or_eq_true, Bool.and_eq_true, decide_eq_true_eq,
    UInt8.le_iff_toNat_le] at h
  delta Char.isAlphanum Char.isAlpha Char.isUpper Char.isLower Char.isDigit
  simp only [Bool.or_eq_true, Bool.and_eq_true, decide_eq_true_eq, UInt32.le_iff_toNat_le, ge_iff_le, hv]
  simp at h ⊢
  omega

/-- The length of a run of letters and digits is that of the longest one. -/
theorem take_length_of_word {b : UInt8} {more : List UInt8} (h : classify b = .word) :
    (b :: more).take (length (b :: more)) = (b :: more).takeWhile isAlnum := by
  simp only [length, h]
  exact List.prefix_iff_eq_take.mp (List.takeWhile_prefix _) |>.symm

end Run

/-- A word run holds letters and digits only. -/
theorem Cursor.next_word {c c' : Cursor} {run : Run} (h : c.next = (.ok (some run), c'))
    (hw : run.cls = .word) : ∀ b ∈ run.bytes, Run.isAlnum b = true := by
  unfold Cursor.next at h
  split at h
  · cases h
  · generalize Run.skipBlank c.rest = s at h
    obtain ⟨before, input⟩ := s
    cases input with
    | nil =>
      simp only at h
      split at h <;> cases h
    | cons b more =>
      simp only at h
      have hrun : run = ⟨Run.classify b, (b :: more).take (Run.length (b :: more)), before⟩ := by
        split at h
        · cases h
        · split at h
          · split at h
            · cases h
            · cases h
              rfl
          · cases h
            rfl
      subst hrun
      simp only at hw ⊢
      rw [Run.take_length_of_word hw]
      exact List.all_eq_true.mp List.all_takeWhile

/-- Kinds with a spelling are neither names nor numbers. -/
theorem Token.Lexical.of_spelling {t : Token} {text : String}
    (h : t.kind.spelling? = some text) : t.Lexical := by
  constructor <;> (intro hk; rw [hk] at h; cases h)

theorem lexical_splitSymbols (file : String) (line column : Nat) (cs : List Char) :
    ∀ t ∈ (splitSymbols file line column cs).1, t.Lexical := by
  fun_induction splitSymbols file line column cs with
  | case1 column => simp
  | case2 column c k hk =>
    simp only [List.mem_singleton, forall_eq]
    exact .of_spelling (TokenKind.spelling?_of_single? hk)
  | case3 => simp
  | case4 => simp
  | case5 column c d rest hc k hk ts e he ih =>
    rw [he] at ih
    simp only [List.mem_cons, forall_eq_or_imp]
    exact ⟨.of_spelling (TokenKind.spelling?_of_pair? hk), ih⟩
  | case6 column c d rest hc hp k hk ts e he ih =>
    rw [he] at ih
    simp only [List.mem_cons, forall_eq_or_imp]
    exact ⟨.of_spelling (TokenKind.spelling?_of_single? hk), ih⟩
  | case7 => simp

theorem TokenKind.spelling?_of_ofReserved? {word : String} {k : TokenKind}
    (h : ofReserved? word = some k) : k.spelling? = some word := by
  obtain ⟨⟨text, k⟩, hp, rfl⟩ := Option.map_eq_some_iff.mp h
  obtain rfl : text = word := by simpa using List.find?_some hp
  exact spelling?_of_mem_reserved (List.mem_of_find?_eq_some hp)

theorem wordKind_ne_number (word : List Char) : wordKind word ≠ .number := by
  unfold wordKind
  split
  · intro h
    cases hr : TokenKind.ofReserved? (String.ofList word) with
    | none => simp [hr] at h
    | some k =>
      rw [hr, Option.getD_some] at h
      have hs := TokenKind.spelling?_of_ofReserved? hr
      rw [h] at hs
      cases hs
  · intro h
    cases h

namespace Stream

theorem lexical_scanWord (start : Site) (bytes : List UInt8)
    (hb : ∀ b ∈ bytes, Run.isAlnum b = true) {ts : List Token}
    (h : scanWord start bytes = .tokens ts) : ∀ t ∈ ts, t.Lexical := by
  cases h
  simp only [List.mem_singleton, forall_eq]
  constructor
  · intro _ c hc
    simp only [Text.ascii, String.toList_ofList, List.mem_map] at hc
    obtain ⟨b, hm, rfl⟩ := hc
    exact Run.isAlphanum_of_isAlnum (hb b hm)
  · intro hk
    exact absurd hk (wordKind_ne_number _)

theorem lexical_scanNumber (start : Site) (bytes : List UInt8) {ts : List Token}
    (h : scanNumber start bytes = .tokens ts) : ∀ t ∈ ts, t.Lexical := by
  unfold scanNumber at h
  simp only at h
  split at h
  · next hc =>
    cases h
    simp only [List.mem_singleton, forall_eq]
    refine ⟨fun hk => ?_, fun _ => ?_⟩
    · cases hk
    · rw [String.toList_ofList]
      exact hc
  · cases h

theorem lexical_scanSymbols (start : Site) (bytes : List UInt8) (s s' : Stream)
    {ts : List Token} (h : scanSymbols start bytes s = (.tokens ts, s')) :
    ∀ t ∈ ts, t.Lexical := by
  have hl := lexical_splitSymbols start.file start.line start.column (Text.decodeLossy bytes)
  unfold scanSymbols at h
  simp only at h
  split at h
  · cases h
    exact hl
  · split at h
    · cases h
      exact hl
    · cases h
  · cases h

theorem lexical_scan {s s' : Stream} {ts : List Token} (h : s.scan = (.tokens ts, s')) :
    ∀ t ∈ ts, t.Lexical := by
  unfold scan at h
  split at h
  · cases h
  · cases h
  · next run c hn =>
    simp only at h
    split at h
    · next hw => exact lexical_scanWord _ _ (Cursor.next_word hn hw) (congrArg Prod.fst h)
    · exact lexical_scanNumber _ _ (congrArg Prod.fst h)
    · exact lexical_scanSymbols _ _ _ _ h

theorem lexical_finished {s s' : Stream} {eof : Token} (h : s.scan = (.finished eof, s')) :
    eof.Lexical := by
  have hk : eof.kind = .eof := by
    unfold scan at h
    split at h
    · cases h
    · cases h
      rfl
    · simp only at h
      split at h
      · cases h
      · simp only [scanNumber, Prod.mk.injEq] at h
        have h1 := h.1
        split at h1 <;> cases h1
      · simp only [scanSymbols] at h
        split at h
        · cases h
        · split at h <;> cases h
        · cases h
  constructor <;> (intro h'; rw [hk] at h'; cases h')

/-- Tokens come out of the stream in order until the first error. -/
theorem lexical_items (budget : Nat → Budget) (pull : Nat) (s : Stream) {ts : List Token}
    (h : (s.items budget pull).mapM id = .ok ts) : ∀ t ∈ ts, t.Lexical := by
  fun_induction items budget pull s generalizing ts with
  | case1 pull s e he => cases h
  | case2 pull s he ts' s' hs ih =>
    have hok (us : List Token) : (us.map (Except.ok : Token → Except LexError Token)).mapM id = .ok us := by
      induction us with
      | nil => rfl
      | cons u us ih => rw [List.map_cons, List.mapM_cons, ih]; rfl
    rw [List.mapM_append, hok] at h
    cases hm : (items budget (pull + ts'.length) s').mapM id with
    | error e => rw [hm] at h; cases h
    | ok us =>
      rw [hm] at h
      cases h
      intro t ht
      rcases List.mem_append.mp ht with ht | ht
      · exact lexical_scan hs t ht
      · exact ih hm t ht
  | case3 pull s he eof s' hs =>
    cases h
    simpa using lexical_finished hs
  | case4 pull s he e ts' s' hs => cases h

end Stream

/-- Every token of a source is lexical. -/
theorem lexical_tokenize {budget : Budget} {file : String} {s : Source} {ts : List Token}
    (h : tokenize budget file s = .ok ts) : ∀ t ∈ ts, t.Lexical :=
  Stream.lexical_items _ _ _ h

end ThreeAddress
