import ThreeAddress.Proofs.Digits
import ThreeAddress.Proofs.Drawing
import ThreeAddress.Proofs.Phrase

namespace ThreeAddress

namespace Text

/-- What can stand behind a phrase: a text that does not run into it. -/
structure Rest (n : Nat) (text : List Char) (ws : List Token) : Prop where
  first : ∀ c ∈ text.head?, (c.isAlphanum = false ∧ c ≠ '.') ∧ c ≠ '/' ∧ c ≠ '='
  layout : Layout n text ws

/-- A text that is laid out for some tokens in front of whatever can stand behind a phrase, if that
does not start with too many punctuators. -/
def Laid (bound : Nat) (text : List Char) (ts : List Token) : Prop :=
  ∀ ⦃n rest ws⦄, Rest n rest ws → n ≤ bound → Layout 0 (text ++ rest) (ts ++ ws)

/-- A text that goes on behind a phrase, as `Laid` is for one that starts a phrase. -/
def Behind (bound : Nat) (text : List Char) (ts : List Token) : Prop :=
  ∀ ⦃n rest ws⦄, Rest n rest ws → n ≤ bound → ∃ n' ≤ bound, Rest n' (text ++ rest) (ts ++ ws)

/-- Lines that are laid out for some tokens in front of any lines. -/
def Lines (text : List Char) (ts : List Token) : Prop :=
  ∀ ⦃n rest ws⦄, Layout n rest ws → ∃ n', Layout n' (text ++ rest) (ts ++ ws)

variable {b n : Nat} {c : Char} {text cs : List Char} {ts ws : List Token} {k : TokenKind}

theorem Rest.stop (h : Rest n text ws) : Stop text := fun c hc => (h.first c hc).1

theorem Rest.blank (h : Layout n text ws) : Rest 0 (' ' :: text) ws := by
  refine ⟨fun d hd => ?_, .blank (.inl rfl) h⟩
  obtain rfl := Option.some.inj hd
  decide

theorem Rest.newline (h : Layout n text ws) : Rest 0 ('\n' :: text) ws := by
  refine ⟨fun d hd => ?_, .blank (.inr rfl) h⟩
  obtain rfl := Option.some.inj hd
  decide

theorem Rest.of_symbol (hk : TokenKind.single? c = some k) (hc : c ≠ '/' ∧ c ≠ '=')
    (hstop : ∀ d ∈ text.head?, d ≠ '/' ∧ d ≠ '=') (h : Layout n text ws) (hn : n ≤ 3) :
    Rest (n + 1) (c :: text) (.bare k (String.ofList [c]) :: ws) := by
  have hlimit : n < runLimit := Nat.lt_of_le_of_lt hn (by decide)
  refine ⟨fun d hd => ?_, .symbol hk hstop hlimit h⟩
  obtain rfl := Option.some.inj hd
  refine ⟨?_, hc⟩
  unfold TokenKind.single? at hk
  split at hk
  all_goals first | decide | cases hk

theorem Rest.symbol (hk : TokenKind.single? c = some k) (hc : c ≠ '/' ∧ c ≠ '=')
    (h : Rest n text ws) (hn : n ≤ 3) :
    Rest (n + 1) (c :: text) (.bare k (String.ofList [c]) :: ws) :=
  .of_symbol hk hc (fun d hd => (h.first d hd).2) h.layout hn

theorem Word.laid (h : Word cs) (hk : wordKind cs = k) :
    Laid b cs [.bare k (String.ofList cs)] := by
  intro n rest ws hrest _
  subst hk
  exact .word h hrest.stop hrest.layout

theorem Number.laid (h : Number cs) : Laid b cs [.bare .number (String.ofList cs)] :=
  fun _ _ _ hrest _ => .number h hrest.stop hrest.layout

theorem laid_reserved {w : String} (h : (w, k) ∈ TokenKind.reserved) :
    Laid b w.toList [.bare k w] := by
  have hall : ∀ p ∈ TokenKind.reserved, p.1.toList.head?.any Char.isAlpha = true ∧
      p.1.toList.all Char.isAlphanum = true ∧ p.1.toList.length ≤ runLimit ∧
      wordKind p.1.toList = p.2 := by
    decide +kernel
  obtain ⟨hfirst, hall, hshort, hkind⟩ := hall _ h
  have hword : Word w.toList :=
    ⟨(Option.any_eq_true _ _).mp hfirst, List.all_eq_true.mp hall, hshort⟩
  have hlaid := hword.laid (b := b) hkind
  rwa [String.ofList_toList] at hlaid

/-- A keyword and a blank. -/
theorem layout_keyword {w : String} (hw : (w, k) ∈ TokenKind.reserved) (h : Layout n text ws) :
    Layout 0 (w.toList ++ ' ' :: text) (.bare k w :: ws) :=
  laid_reserved (b := 0) hw (.blank h) (Nat.le_refl 0)

theorem Behind.nil : Behind b [] [] := fun n _ _ h hn => ⟨n, hn, h⟩

theorem Behind.flatMap {α : Type} {as : List α} {f : α → List Char} {g : α → List Token}
    (h : ∀ a ∈ as, Behind b (f a) (g a)) : Behind b (as.flatMap f) (as.flatMap g) := by
  induction as with
  | nil => exact .nil
  | cons a as ih =>
    intro n rest ws hrest hn
    obtain ⟨ha, has⟩ := List.forall_mem_cons.mp h
    obtain ⟨n', hn', hrest'⟩ := ih has hrest hn
    rw [List.flatMap_cons, List.flatMap_cons, List.append_assoc, List.append_assoc]
    exact ha hrest' hn'

theorem Laid.append {text' : List Char} {ts' : List Token} (h : Laid b text ts)
    (h' : Behind b text' ts') : Laid b (text ++ text') (ts ++ ts') := by
  intro n rest ws hrest hn
  obtain ⟨n', hn', hrest'⟩ := h' hrest hn
  rw [List.append_assoc, List.append_assoc]
  exact h hrest' hn'

theorem Lines.nil : Lines [] [] := fun n _ _ h => ⟨n, h⟩

theorem Lines.append {text' : List Char} {ts' : List Token} (h : Lines text ts)
    (h' : Lines text' ts') : Lines (text ++ text') (ts ++ ts') := by
  intro n rest ws hrest
  obtain ⟨n', hrest'⟩ := h' hrest
  obtain ⟨n'', hall⟩ := h hrest'
  rw [List.append_assoc, List.append_assoc]
  exact ⟨n'', hall⟩

/-- The characters that a comment may hold. -/
theorem plain_of_all (h : (cs.all fun c => decide (c.toNat < 0x80) && c != '\n') = true) :
    ∀ c ∈ cs, c.toNat < 0x80 ∧ c ≠ '\n' := by
  simpa using h

/-- A text that starts with no punctuator can stand behind one. -/
theorem head_of_zero (h : Layout 0 text ws) : ∀ d ∈ text.head?, d ≠ '/' ∧ d ≠ '=' := by
  intro d hd
  have hstop := h.stop_of_zero (octet d) (by rw [head?_octets, hd]; rfl)
  constructor <;> rintro rfl <;> revert hstop <;> decide

end Text

namespace Sample

open Text Phrase

/-- A mark for names: nothing, or a letter with letters and digits behind it. It leaves room for the
rest of a name. -/
structure IsMark (mark : String) : Prop where
  first : ∀ c ∈ mark.toList.head?, c.isAlpha = true
  all : ∀ c ∈ mark.toList, c.isAlphanum = true
  short : mark.utf8ByteSize ≤ 32000

theorem utf8ByteSize_eq (s : String) :
    s.utf8ByteSize = (s.toList.flatMap String.utf8EncodeChar).length := by
  rw [← List.size_toByteArray, ← List.utf8Encode, ← String.toByteArray_ofList,
    String.ofList_toList]
  rfl

/-- Every character takes one to four bytes. -/
theorem length_utf8Encode (cs : List Char) :
    cs.length ≤ (cs.flatMap String.utf8EncodeChar).length ∧
      (cs.flatMap String.utf8EncodeChar).length ≤ 4 * cs.length := by
  induction cs with
  | nil => exact ⟨Nat.le_refl 0, Nat.le_refl 0⟩
  | cons c cs ih =>
    have hpos := c.utf8Size_pos
    have hle := c.utf8Size_le_four
    rw [List.flatMap_cons, List.length_append, String.length_utf8EncodeChar, List.length_cons]
    omega

theorem length_toList_le (s : String) : s.toList.length ≤ s.utf8ByteSize := by
  rw [utf8ByteSize_eq]
  exact (length_utf8Encode s.toList).1

theorem utf8ByteSize_le (s : String) : s.utf8ByteSize ≤ 4 * s.toList.length := by
  rw [utf8ByteSize_eq]
  exact (length_utf8Encode s.toList).2

/-- A name: a letter for what is named and its number, behind a mark. -/
def nameText (mark : String) (letter : Char) (n : Nat) : List Char :=
  mark.toList ++ letter :: Nat.toDigits 10 n

def nameToken (mark : String) (letter : Char) (n : Nat) : TokenOf .ident :=
  ⟨.bare .ident (String.ofList (nameText mark letter n)), rfl⟩

instance (mark : String) : Decidable (IsMark mark) :=
  decidable_of_iff (mark.toList.head?.all Char.isAlpha = true ∧
    mark.toList.all Char.isAlphanum = true ∧ mark.utf8ByteSize ≤ 32000)
    ⟨fun h => ⟨(Option.all_eq_true _ _).mp h.1, List.all_eq_true.mp h.2.1, h.2.2⟩,
      fun h => ⟨(Option.all_eq_true _ _).mpr h.first, List.all_eq_true.mpr h.all, h.short⟩⟩

theorem isMark_empty : IsMark "" := by decide

section
variable {mark : String} (hm : IsMark mark) (letter : Char) (hl : letter.isAlpha = true) {n : Nat}
  (hn : n < UInt64.size)
include hm hl hn

theorem word_nameText : Text.Word (nameText mark letter n) := by
  have hletter : letter.isAlphanum = true := by rw [Char.isAlphanum, hl, Bool.true_or]
  have hdigits := Numeral.isDigit_of_mem (n := n) (b := 10) (by decide) (by decide)
  have hlength := Numeral.length_toDigits_le (b := 10) (by decide) hn
  refine ⟨?_, ?_, ?_⟩
  · cases hmark : mark.toList with
    | nil => exact ⟨letter, by rw [nameText, hmark]; rfl, hl⟩
    | cons c cs => exact ⟨c, by rw [nameText, hmark]; rfl, hm.first c (by rw [hmark]; rfl)⟩
  · refine List.forall_mem_append.mpr ⟨hm.all, List.forall_mem_cons.mpr ⟨hletter, ?_⟩⟩
    exact fun c hc => Numeral.isAlphanum_of_isDigit (hdigits c hc)
  · have hmark := Nat.le_trans (length_toList_le mark) hm.short
    rw [nameText, List.length_append, List.length_cons]
    have hlimit : runLimit = 32767 := rfl
    omega

omit hm hl hn in
/-- No reserved word ends in a digit. -/
theorem wordKind_nameText (mark : String) (letter : Char) (n : Nat) :
    wordKind (nameText mark letter n) = .ident := by
  have hnone : TokenKind.ofReserved? (String.ofList (nameText mark letter n)) = none := by
    rw [TokenKind.ofReserved?, Option.map_eq_none_iff, List.find?_eq_none]
    intro p hp heq
    have hletters : ∀ p ∈ TokenKind.reserved, p.1.toList.any Char.isDigit = false := by
      decide +kernel
    obtain ⟨c, hc⟩ := List.exists_mem_of_ne_nil _ (Nat.toDigits_ne_nil (n := n) (b := 10))
    have hmem : c ∈ p.1.toList := by
      rw [beq_iff_eq.mp heq, String.toList_ofList, nameText]
      exact List.mem_append_right _ (List.mem_cons_of_mem _ hc)
    have hdigit := Numeral.isDigit_of_mem (by decide) (by decide) c hc
    exact absurd hdigit (List.any_eq_false.mp (hletters p hp) c hmem)
  rw [wordKind_eq, hnone]
  rfl

theorem laid_name (b : Nat) : Laid b (nameText mark letter n) [(nameToken mark letter n).1] :=
  (word_nameText hm letter hl hn).laid (wordKind_nameText mark letter n)

end

section
variable (mark : String)

def IntType.token : IntType → TypeToken
  | .int => ⟨.bare .intWord "int", rfl⟩
  | .alias n => ⟨(nameToken mark 't' n).1, rfl⟩

def Var.token : Var → TokenOf .ident
  | .param n => nameToken "" 'p' n
  | .global n => nameToken mark 'g' n
  | .local n => nameToken "" 'v' n

def Number.token (n : Number) : LiteralToken := ⟨.bare .number n.text, rfl⟩

def Argument.token : Argument → ValueToken
  | .var v => ⟨(v.token mark).1, by rw [(v.token mark).2]; rfl⟩
  | .number n => ⟨.bare .number (toString n), rfl⟩

def semi : TokenOf .semi := ⟨.bare .semi ";", rfl⟩

def colon : TokenOf .colon := ⟨.bare .colon ":", rfl⟩

def comma : TokenOf .comma := ⟨.bare .comma ",", rfl⟩

def lparen : TokenOf .lparen := ⟨.bare .lparen "(", rfl⟩

def rparen : TokenOf .rparen := ⟨.bare .rparen ")", rfl⟩

def equals : TokenOf .assign := ⟨.bare .assign "=", rfl⟩

def varWord : TokenOf .varWord := ⟨.bare .varWord "var", rfl⟩

/-- Members with commas between them, if there are any. -/
def listed {α β : Type} (f : α → β) : List α → Option (Chain β (TokenOf .comma))
  | [] => none
  | a :: as => some ⟨f a, as.map fun b => (comma, f b)⟩

def Call.callee (c : Call) : TokenOf .ident := nameToken mark 'f' c.function

def Call.arguments (c : Call) : Option Args := listed (Argument.token mark) c.args

def Term.phrase : Term → Phrase.Term
  | .call c => .call (c.callee mark) lparen (c.arguments mark) rparen
  | .var v => .name (v.token mark)
  | .number n => .literal n.token

def operatorKind : Operator → TokenKind
  | .add => .plus
  | .sub => .minus
  | .mul => .star
  | .div => .slash
  | .rem => .percent
  | .lt => .lt
  | .gt => .gt
  | .le => .le
  | .ge => .ge
  | .eq => .eqEq
  | .ne => .notEq
  | .and => .andWord
  | .or => .orWord

def operatorToken (op : Operator) : OperatorToken :=
  ⟨.bare (operatorKind op) op.symbol, op, by cases op <;> rfl⟩

def Sum.phrase (s : Sum) : Flat :=
  ⟨s.first.phrase mark, s.rest.map fun x => (operatorToken x.1, x.2.phrase mark)⟩

def Statement.phrases : Statement → List Phrase.Stmt
  | .local n type none => [.local varWord (nameToken "" 'v' n) colon (type.token mark) semi]
  | .local n type (some s) =>
    [.valued (.local varWord (nameToken "" 'v' n) colon (type.token mark) equals) (s.phrase mark)
      semi]
  | .assign target s => [.valued (.assign (target.token mark) equals) (s.phrase mark) semi]
  | .call c => [.call (c.callee mark) lparen (c.arguments mark) rparen semi]
  | .comment => []

def param (x : IntType × Nat) : Phrase.Param := ⟨nameToken "" 'p' x.2, colon, x.1.token mark⟩

def Func.header (f : Func) : Header :=
  ⟨⟨.bare .funcWord "func", rfl⟩, nameToken mark 'f' f.number, lparen,
    listed (param mark) f.params.zipIdx, rparen, colon, f.ret.token mark,
    ⟨.bare .lbrace "\x7b", rfl⟩⟩

def Func.stmts (f : Func) : List Phrase.Stmt :=
  f.body.flatMap (·.phrases mark) ++
    [.valued (.ret ⟨.bare .returnWord "return", rfl⟩) (f.result.phrase mark) semi]

def Piece.items : Piece → List Phrase.Item
  | .alias n target =>
    [.type ⟨.bare .typeWord "type", rfl⟩ (nameToken mark 't' n) equals (target.token mark) semi]
  | .global n type init =>
    [.global varWord (nameToken mark 'g' n) colon (type.token mark)
      (init.map fun v => (equals, v.token)) semi]
  | .comment _ => []
  | .function f => [.func (f.header mark) (f.stmts mark) ⟨.bare .rbrace "\x7d", rfl⟩]

end

theorem toList_digits (n : Nat) : (toString n).toList = Nat.toDigits 10 n := Nat.toList_repr

theorem toList_name (mark letter : String) (n : Nat) :
    (toString mark ++ toString letter ++ toString n).toList =
      mark.toList ++ (letter.toList ++ Nat.toDigits 10 n) := by
  rw [String.toList_append, String.toList_append, List.append_assoc, toList_digits]
  rfl

theorem IntType.toList_alias (mark : String) (n : Nat) :
    ((IntType.alias n).text mark).toList = nameText mark 't' n := toList_name mark "t" n

def Var.chars (mark : String) : Var → List Char
  | .param n => nameText "" 'p' n
  | .global n => nameText mark 'g' n
  | .local n => nameText "" 'v' n

theorem Var.toList_text (mark : String) (v : Var) : (v.text mark).toList = v.chars mark := by
  cases v with
  | param n => exact toList_name "" "p" n
  | «global» n => exact toList_name mark "g" n
  | «local» n => exact toList_name "" "v" n

theorem Number.writes {n : Number} (h : n.Small) :
    ∃ v < UInt64.size, Numeral.Writes n.text.toList v := by
  obtain ⟨v, style⟩ := n
  have hbyte : v % 256 < UInt64.size := Nat.lt_of_le_of_lt (Nat.mod_le _ _) h
  cases style with
  | hex => exact ⟨v, h, by simpa [text, digitsText] using Numeral.writes_hex h⟩
  | binary => exact ⟨v % 256, hbyte, by simpa [text, digitsText] using Numeral.writes_binary hbyte⟩
  | unsigned =>
    have htext : (Number.mk v .unsigned).text.toList = Nat.toDigits 10 v ++ ['u'] := by
      rw [text, String.toList_append, toList_digits]
      rfl
    exact ⟨v, h, htext ▸ Numeral.writes_unsigned h⟩
  | plain => exact ⟨v, h, by simpa [text, toList_digits] using Numeral.writes_decimal h⟩

theorem Number.laid {n : Number} (h : n.Small) (b : Nat) : Laid b n.text.toList [n.token.1] := by
  obtain ⟨v, hv, hwrites⟩ := Number.writes h
  have hlaid := hwrites.number.laid (b := b)
  rwa [String.ofList_toList] at hlaid

/-- The numbers of declarations are small enough to write. -/
structure Names.Small (names : Names) : Prop where
  aliases : names.aliases ≤ UInt64.size
  globals : names.globals ≤ UInt64.size
  functions : names.functions.length ≤ UInt64.size

structure Context.Small (c : Context) : Prop where
  names : c.names.Small
  params : c.params ≤ UInt64.size
  locals : c.locals ≤ UInt64.size

section
variable {mark : String} (hm : IsMark mark)
include hm

theorem IntType.laid {t : IntType} {aliases : Nat} (ha : aliases ≤ UInt64.size)
    (h : t.Known aliases) (b : Nat) : Laid b (t.text mark).toList [(t.token mark).1] := by
  cases t with
  | int => exact laid_reserved (w := "int") (by decide)
  | «alias» n =>
    rw [IntType.toList_alias]
    exact laid_name hm 't' (by decide) (Nat.lt_of_lt_of_le h ha) b

variable {c : Context} (hc : c.Small)
include hc

theorem Var.laid {v : Var} (h : v.Known c) (b : Nat) :
    Laid b (v.text mark).toList [(v.token mark).1] := by
  rw [v.toList_text]
  cases v with
  | param n => exact laid_name isMark_empty 'p' (by decide) (Nat.lt_of_lt_of_le h hc.params) b
  | «global» n => exact laid_name hm 'g' (by decide) (Nat.lt_of_lt_of_le h hc.names.globals) b
  | «local» n => exact laid_name isMark_empty 'v' (by decide) (Nat.lt_of_lt_of_le h hc.locals) b

theorem Argument.laid {a : Argument} (h : a.Known c) (b : Nat) :
    Laid b (a.text mark).toList [(a.token mark).1] := by
  cases a with
  | var v => exact Var.laid hm hc h b
  | number n =>
    have hnumber := (Numeral.writes_decimal h).number.laid (b := b)
    rw [← toList_digits, String.ofList_toList] at hnumber
    exact hnumber

end

theorem exists_rest_listed {α β : Type} {f : α → String} {g : α → β} {t : β → List Token}
    {as : List α} (h : ∀ a ∈ as, Laid 3 (f a).toList (t (g a))) {n : Nat} {rest : List Char}
    {ws : List Token} (hrest : Rest n rest ws) (hn : n ≤ 2) :
    ∃ k, Rest k ('(' :: ((", ".intercalate (as.map f)).toList ++ ')' :: rest))
      (lparen.1 :: ((listed g as).elim [] (Chain.flatten t fun s => [s.1]) ++
        rparen.1 :: ws)) := by
  have hclose : Rest (n + 1) (')' :: rest) (rparen.1 :: ws) :=
    .symbol rfl (by decide) hrest (by omega)
  cases as with
  | nil =>
    rw [List.map_nil, String.intercalate_nil]
    exact ⟨_, .symbol rfl (by decide) hclose (by omega)⟩
  | cons a as =>
    obtain ⟨ha, has⟩ := List.forall_mem_cons.mp h
    have htail : Behind 3 (as.flatMap fun b => ',' :: ' ' :: (f b).toList)
        (as.flatMap fun b => comma.1 :: t (g b)) := by
      refine .flatMap fun b hb n rest ws hrest hn => ⟨1, by omega, ?_⟩
      exact .symbol rfl (by decide) (.blank (has b hb hrest hn)) (by omega)
    have hall := (ha.append htail) hclose (by omega)
    have htext : (", ".intercalate ((a :: as).map f)).toList =
        (f a).toList ++ as.flatMap fun b => ',' :: ' ' :: (f b).toList := by
      rw [String.toList_intercalate, List.map_map, List.map_cons, intercalate_cons,
        List.flatMap_map]
      rfl
    have htokens : (listed g (a :: as)).elim [] (Chain.flatten t fun s => [s.1]) =
        t (g a) ++ as.flatMap fun b => comma.1 :: t (g b) := by
      simp [listed, Chain.flatten, List.flatMap_map]
    rw [htext, htokens]
    exact ⟨1, .of_symbol rfl (by decide) (head_of_zero hall) hall (by omega)⟩

section
variable {mark : String} (hm : IsMark mark) {c : Context} (hc : c.Small)

theorem Call.toList_text (mark : String) (k : Call) :
    (k.text mark).toList = nameText mark 'f' k.function ++
      '(' :: ((", ".intercalate (k.args.map (·.text mark))).toList ++ [')']) := by
  show (toString mark ++ toString "f" ++ toString k.function ++ toString "(" ++
    toString (", ".intercalate (k.args.map (·.text mark))) ++ toString ")").toList = _
  simp only [String.toList_append, toList_digits, nameText, List.append_assoc, List.cons_append]
  rfl

include hm hc

theorem Call.laid {k : Call} (h : k.Known c) :
    Laid 2 (k.text mark).toList
      ([(k.callee mark).1, lparen.1] ++ Args.tokens (k.arguments mark) ++ [rparen.1]) := by
  intro n rest ws hrest hn
  obtain ⟨i, hi⟩ := exists_rest_listed (t := fun v : ValueToken => [v.1])
    (fun a ha => Argument.laid hm hc (h.args a ha) 3) hrest hn
  have hlt : k.function < UInt64.size := by
    have hlength := (List.getElem?_eq_some_iff.mp h.callee).1
    exact Nat.lt_of_lt_of_le hlength hc.names.functions
  have htokens : Args.tokens (k.arguments mark) =
      (listed (Argument.token mark) k.args).elim []
        (Chain.flatten (fun v => [v.1]) fun s => [s.1]) := by
    rw [Call.arguments]
    cases k.args <;> rfl
  have hall := laid_name hm 'f' (by decide) hlt i hi (Nat.le_refl i)
  rw [Call.toList_text, htokens]
  simp only [List.append_assoc, List.cons_append, List.nil_append]
  exact hall

theorem Term.laid {t : Term} (h : t.Known c) :
    Laid 2 (t.text mark).toList (t.phrase mark).tokens := by
  cases t with
  | call k => exact Call.laid hm hc h
  | var v => exact Var.laid hm hc h 2
  | number n => exact Number.laid h 2

omit hm hc in
theorem single?_symbol {op : Operator} (h : op ∈ arithmetic) :
    ∃ d, op.symbol = String.ofList [d] ∧ TokenKind.single? d = some (operatorKind op) := by
  simp only [arithmetic, List.mem_cons, List.not_mem_nil, or_false] at h
  rcases h with rfl | rfl | rfl | rfl | rfl
  · exact ⟨'+', rfl, rfl⟩
  · exact ⟨'-', rfl, rfl⟩
  · exact ⟨'*', rfl, rfl⟩
  · exact ⟨'/', rfl, rfl⟩
  · exact ⟨'%', rfl, rfl⟩

theorem Sum.laid {s : Sum} (h : s.Known c) :
    Laid 2 (s.text mark).toList (s.phrase mark).tokens := by
  have htail : Behind 2
      (s.rest.flatMap fun x => ' ' :: x.1.symbol.toList ++ ' ' :: (x.2.text mark).toList)
      (s.rest.flatMap fun x => (operatorToken x.1).token :: (x.2.phrase mark).tokens) := by
    refine .flatMap fun x hx n rest ws hrest hn => ⟨0, by omega, ?_⟩
    obtain ⟨hop, hterm⟩ := h.rest x hx
    obtain ⟨d, hsymbol, hsingle⟩ := single?_symbol hop
    have hterm := Rest.blank (Term.laid hm hc hterm hrest hn)
    have hop := Layout.symbol hsingle (fun d hd => (hterm.first d hd).2) (by decide) hterm.layout
    have hrest := Rest.blank hop
    rw [operatorToken, hsymbol, String.toList_ofList]
    exact hrest
  have htext : (s.text mark).toList = (s.first.text mark).toList ++
      s.rest.flatMap fun x => ' ' :: x.1.symbol.toList ++ ' ' :: (x.2.text mark).toList := by
    rw [Sum.text, String.toList_append, String.toList_join, List.flatMap_map]
    congr
    funext x
    simp
  have htokens : (s.phrase mark).tokens = (s.first.phrase mark).tokens ++
      s.rest.flatMap fun x => (operatorToken x.1).token :: (x.2.phrase mark).tokens := by
    simp [Sum.phrase, Flat.tokens, Chain.flatten, List.flatMap_map]
  rw [htext, htokens]
  exact (Term.laid hm hc h.first).append htail

omit hm hc in
theorem Layout.indent {n : Nat} {text : List Char} {ws : List Token} (h : Layout n text ws) :
    Layout 0 ("    ".toList ++ text) ws :=
  .blank (.inl rfl) (.blank (.inl rfl) (.blank (.inl rfl) (.blank (.inl rfl) h)))

omit hm hc in
theorem Rest.semi {n : Nat} {text : List Char} {ws : List Token} (h : Layout n text ws) :
    Rest 1 (';' :: '\n' :: text) (semi.1 :: ws) :=
  .symbol rfl (by decide) (.newline h) (Nat.zero_le 3)

omit hm hc in
theorem Rest.colon {n : Nat} {text : List Char} {ws : List Token} (h : Layout n text ws) :
    Rest 1 (": ".toList ++ text) (colon.1 :: ws) :=
  .symbol rfl (by decide) (.blank h) (Nat.zero_le 3)

omit hm hc in
theorem Rest.equals {n : Nat} {text : List Char} {ws : List Token} (h : Layout n text ws) :
    Rest 0 (" = ".toList ++ text) (equals.1 :: ws) :=
  .blank (.symbol rfl (fun d hd => ((Rest.blank h).first d hd).2) (by decide) (.blank (.inl rfl) h))

omit hm hc in
theorem behind_initText {α : Type} {f : α → String} {g : α → List Token} {init : Option α}
    (h : ∀ a ∈ init, Laid 2 (f a).toList (g a)) :
    Behind 2 (initText (init.map f)).toList (init.elim [] fun a => equals.1 :: g a) := by
  cases init with
  | none => exact .nil
  | some a =>
    intro n rest ws hrest hn
    refine ⟨0, by omega, ?_⟩
    rw [Option.map_some, initText, String.toList_append, List.append_assoc]
    exact Rest.equals (h a rfl hrest hn)

omit hc in
/-- A variable with its type and maybe its first value. -/
theorem layout_variable {aliases : Nat} (ha : aliases ≤ UInt64.size) {type : IntType}
    (htype : type.Known aliases) {name init : List Char} {t : Token} {ts : List Token}
    (hname : Laid 1 name [t]) (hinit : Behind 2 init ts) {n : Nat} {rest : List Char}
    {ws : List Token} (hrest : Layout n rest ws) :
    Layout 0 ("var ".toList ++ (name ++ (": ".toList ++ ((type.text mark).toList ++
      (init ++ ';' :: '\n' :: rest)))))
      (varWord.1 :: t :: colon.1 :: (type.token mark).1 :: (ts ++ semi.1 :: ws)) := by
  obtain ⟨i, -, hinit⟩ := hinit (Rest.semi hrest) (by omega)
  have hcolon := Rest.colon (IntType.laid hm ha htype i hinit (Nat.le_refl i))
  have hname := hname hcolon (Nat.le_refl 1)
  exact layout_keyword (w := "var") (by decide) hname

omit hm hc in
theorem Statement.toList_local (mark : String) (i : Nat) (type : IntType) (init : Option Sum)
    (rest : List Char) :
    ((Statement.local i type init).text mark).toList ++ rest =
      "    ".toList ++ ("var ".toList ++ (nameText "" 'v' i ++ (": ".toList ++
        ((type.text mark).toList ++ ((initText (init.map (·.text mark))).toList ++
          ';' :: '\n' :: rest))))) := by
  show (toString "    var v" ++ toString i ++ toString ": " ++ toString (type.text mark) ++
    toString (initText (init.map (·.text mark))) ++ toString ";\n").toList ++ rest = _
  simp only [String.toList_append, List.append_assoc, toList_digits]
  rfl

omit hm hc in
theorem Statement.toList_assign (mark : String) (target : Var) (value : Sum) (rest : List Char) :
    ((Statement.assign target value).text mark).toList ++ rest =
      "    ".toList ++ ((target.text mark).toList ++ (" = ".toList ++
        ((value.text mark).toList ++ ';' :: '\n' :: rest))) := by
  show ("    " ++ target.text mark ++ " = " ++ value.text mark ++ ";\n").toList ++ rest = _
  simp only [String.toList_append, List.append_assoc]
  rfl

omit hm hc in
theorem Statement.toList_call (mark : String) (k : Call) (rest : List Char) :
    ((Statement.call k).text mark).toList ++ rest =
      "    ".toList ++ ((k.text mark).toList ++ ';' :: '\n' :: rest) := by
  show ("    " ++ k.text mark ++ ";\n").toList ++ rest = _
  simp only [String.toList_append, List.append_assoc]
  rfl

theorem Statement.lines {s : Statement} (h : s.Known c) (hlocals : c.locals < UInt64.size) :
    Lines (s.text mark).toList ((s.phrases mark).flatMap Phrase.Stmt.tokens) := by
  intro n rest ws hrest
  have hsemi := Rest.semi hrest
  cases s with
  | «local» i type init =>
    obtain ⟨rfl, htype, hinit⟩ := h
    have hname := laid_name isMark_empty 'v' (by decide) hlocals 1
    have hinit := behind_initText fun s hs => Sum.laid hm hc (hinit s hs)
    have hall := Layout.indent (layout_variable hm hc.names.aliases htype hname hinit hrest)
    rw [Statement.toList_local]
    refine ⟨0, ?_⟩
    cases init with
    | none => exact hall
    | some s => simpa [Statement.phrases, Phrase.Stmt.tokens, Head.tokens] using hall
  | assign target value =>
    have hvalue := Rest.equals (Sum.laid hm hc h.2 hsemi (by omega))
    have hall := Layout.indent (Var.laid hm hc h.1 0 hvalue (Nat.le_refl 0))
    rw [Statement.toList_assign]
    refine ⟨0, ?_⟩
    simpa [Statement.phrases, Phrase.Stmt.tokens, Head.tokens] using hall
  | call k =>
    have hall := Layout.indent (Call.laid hm hc h hsemi (by omega))
    rw [Statement.toList_call]
    refine ⟨0, ?_⟩
    simpa [Statement.phrases, Phrase.Stmt.tokens] using hall
  | comment =>
    have hcomment : Layout 2 ('/' :: '/' :: " nothing here".toList ++ '\n' :: rest) ws :=
      .comment (plain_of_all (by decide +kernel)) hrest
    have htext : (Statement.comment.text mark).toList =
        "    ".toList ++ ('/' :: '/' :: " nothing here".toList ++ ['\n']) := by
      show "    // nothing here\n".toList = _
      decide +kernel
    rw [htext, List.append_assoc, List.append_assoc]
    exact ⟨0, Layout.indent hcomment⟩

omit hc in
/-- The lines of statements, and what can be used behind them is small enough too. -/
theorem Body.lines {c c' : Context} {ss : List Statement} (h : Body c ss c')
    (hnames : c.names.Small) (hparams : c.params ≤ UInt64.size)
    (hlocals : c.locals + ss.length ≤ UInt64.size) :
    Lines (ss.flatMap fun s => (s.text mark).toList)
      ((ss.flatMap (·.phrases mark)).flatMap Phrase.Stmt.tokens) ∧ c'.Small := by
  induction h with
  | @nil c => exact ⟨.nil, hnames, hparams, Nat.le_of_add_right_le hlocals⟩
  | @cons c c' s ss h hs ih =>
    rw [List.length_cons] at hlocals
    have hc : c.Small := ⟨hnames, hparams, by omega⟩
    have hbehind : (c.behind s).names = c.names ∧ (c.behind s).params = c.params ∧
        (c.behind s).locals ≤ c.locals + 1 := by
      cases s with
      | «local» n type init => exact ⟨rfl, rfl, Nat.le_refl _⟩
      | _ => exact ⟨rfl, rfl, Nat.le_succ _⟩
    obtain ⟨hn, hp, hl⟩ := hbehind
    obtain ⟨hlines, hsmall⟩ := ih (hn ▸ hnames) (hp ▸ hparams) (by omega)
    have hline := Statement.lines hm hc h (by omega)
    rw [List.flatMap_cons, List.flatMap_cons, List.flatMap_append]
    exact ⟨hline.append hlines, hsmall⟩

end

def paramText (mark : String) (x : IntType × Nat) : String := s!"p{x.2}: {x.1.text mark}"

theorem Func.toList_text (mark : String) (f : Func) :
    (f.text mark).toList = "func ".toList ++ (nameText mark 'f' f.number ++ '(' ::
      ((", ".intercalate (f.params.zipIdx.map (paramText mark))).toList ++ ')' ::
        (": ".toList ++ ((f.ret.text mark).toList ++ (" \x7b\n".toList ++
          (f.body.flatMap (fun s => (s.text mark).toList) ++ ("    return ".toList ++
            ((f.result.text mark).toList ++ ";\n\x7d\n".toList)))))))) := by
  show (toString "func " ++ toString mark ++ toString "f" ++ toString f.number ++ toString "(" ++
    toString (", ".intercalate (f.params.zipIdx.map (paramText mark))) ++ toString "): " ++
      toString (f.ret.text mark) ++ toString " \x7b\n" ++ String.join (f.body.map (·.text mark)) ++
        "    return " ++ f.result.text mark ++ ";\n\x7d\n").toList = _
  simp only [String.toList_append, String.toList_join, List.flatMap_map, List.append_assoc,
    toList_digits, nameText, List.cons_append]
  rfl

section
variable {mark : String} (hm : IsMark mark) {names : Names}
include hm

theorem laid_param {aliases : Nat} (ha : aliases ≤ UInt64.size) {x : IntType × Nat}
    (htype : x.1.Known aliases) (hx : x.2 < UInt64.size) :
    Laid 3 (paramText mark x).toList (param mark x).tokens := by
  intro n rest ws hrest _
  have hcolon := Rest.colon (IntType.laid hm ha htype n hrest (Nat.le_refl n))
  have hall := laid_name isMark_empty 'p' (by decide) hx 1 hcolon (Nat.le_refl 1)
  have htext : (paramText mark x).toList =
      nameText "" 'p' x.2 ++ (": ".toList ++ (x.1.text mark).toList) := by
    show (toString "p" ++ toString x.2 ++ toString ": " ++ toString (x.1.text mark)).toList = _
    simp only [String.toList_append, List.append_assoc, toList_digits]
    rfl
  rw [htext, List.append_assoc, List.append_assoc]
  exact hall

theorem Func.lines {f : Func} (h : f.Known names) (hnames : names.Small)
    (hnumber : f.number < UInt64.size) :
    Lines (f.text mark).toList
      (Phrase.Item.tokens (.func (f.header mark) (f.stmts mark) ⟨.bare .rbrace "\x7d", rfl⟩)) := by
  intro n rest ws hrest
  -- The layout is put together from behind: each part stands in front of what is laid out already.
  obtain ⟨c, hbody, hresult⟩ := h.body
  have hsize : f.params.length ≤ UInt64.size := Nat.le_trans h.arity (by decide)
  obtain ⟨hlines, hc⟩ := hbody.lines hm hnames hsize
    (by simpa using Nat.le_trans h.size (by decide))
  have hclose : Rest 1 ('\x7d' :: '\n' :: rest) (.bare .rbrace "\x7d" :: ws) :=
    .symbol rfl (by decide) (.newline hrest) (Nat.zero_le 3)
  have hresult := Sum.laid hm hc hresult (Rest.semi hclose.layout) (by omega)
  have hreturn := Layout.indent
    (layout_keyword (w := "return") (k := .returnWord) (by decide) hresult)
  obtain ⟨i, hlines⟩ := hlines hreturn
  have hbrace : Rest 1 ('\x7b' :: '\n' :: _) (.bare .lbrace "\x7b" :: _) :=
    .symbol rfl (by decide) (.newline hlines) (Nat.zero_le 3)
  have hret := IntType.laid hm hnames.aliases h.ret 0 (.blank hbrace.layout) (Nat.le_refl 0)
  have hcolon := Rest.colon hret
  have hparam : ∀ x ∈ f.params.zipIdx, Laid 3 (paramText mark x).toList (param mark x).tokens := by
    intro x hx
    have hlt : x.2 < UInt64.size := Nat.lt_of_lt_of_le (List.snd_lt_of_mem_zipIdx hx) hsize
    exact laid_param hm hnames.aliases (h.params _ (List.fst_mem_of_mem_zipIdx hx)) hlt
  obtain ⟨j, hparams⟩ := exists_rest_listed hparam hcolon (by omega)
  have hname := laid_name hm 'f' (by decide) hnumber j hparams (Nat.le_refl j)
  have hall := layout_keyword (w := "func") (k := .funcWord) (by decide) hname
  refine ⟨0, ?_⟩
  rw [Func.toList_text]
  have htokens : Params.tokens (listed (param mark) f.params.zipIdx) =
      (listed (param mark) f.params.zipIdx).elim []
        (Chain.flatten Phrase.Param.tokens fun s => [s.1]) := by
    cases f.params.zipIdx <;> rfl
  simp only [Phrase.Item.tokens, Header.tokens, Func.header, htokens, Func.stmts,
    List.flatMap_append, List.flatMap_cons, List.flatMap_nil, Phrase.Stmt.tokens, Head.tokens,
    List.append_assoc, List.cons_append, List.nil_append]
  exact hall

omit hm in
theorem Piece.toList_alias (mark : String) (i : Nat) (target : IntType) (rest : List Char) :
    ((Piece.alias i target).text mark).toList ++ rest =
      "type".toList ++ ' ' :: (nameText mark 't' i ++ (" = ".toList ++
        ((target.text mark).toList ++ ';' :: '\n' :: rest))) := by
  show (toString "type " ++ toString mark ++ toString "t" ++ toString i ++ toString " = " ++
    toString (target.text mark) ++ toString ";\n").toList ++ rest = _
  simp only [String.toList_append, List.append_assoc, toList_digits, nameText, List.cons_append]
  rfl

omit hm in
theorem Piece.toList_global (mark : String) (i : Nat) (type : IntType) (init : Option Number)
    (rest : List Char) :
    ((Piece.global i type init).text mark).toList ++ rest =
      "var ".toList ++ (nameText mark 'g' i ++ (": ".toList ++ ((type.text mark).toList ++
        ((initText (init.map (·.text))).toList ++ ';' :: '\n' :: rest)))) := by
  show (toString "var " ++ toString mark ++ toString "g" ++ toString i ++ toString ": " ++
    toString (type.text mark) ++ toString (initText (init.map (·.text))) ++
      toString ";\n").toList ++ rest = _
  simp only [String.toList_append, List.append_assoc, toList_digits, nameText, List.cons_append]
  rfl

theorem Piece.lines {p : Piece} (h : p.Known names) (hnames : names.Small)
    (hadd : (names.add p).Small) :
    Lines (p.text mark).toList ((p.items mark).flatMap Phrase.Item.tokens) := by
  intro n rest ws hrest
  cases p with
  | «alias» i target =>
    obtain ⟨rfl, htarget⟩ := h
    have htarget := IntType.laid hm hnames.aliases htarget 1 (Rest.semi hrest) (Nat.le_refl 1)
    have hname := laid_name hm 't' (by decide) hadd.aliases 0 (Rest.equals htarget) (Nat.le_refl 0)
    have hall := layout_keyword (w := "type") (k := .typeWord) (by decide) hname
    rw [Piece.toList_alias]
    exact ⟨0, hall⟩
  | «global» i type init =>
    obtain ⟨rfl, htype, hinit⟩ := h
    have hname := laid_name hm 'g' (by decide) hadd.globals 1
    have hinit := behind_initText fun v hv => Number.laid (hinit v hv) 2
    have hall := layout_variable hm hnames.aliases htype hname hinit hrest
    rw [Piece.toList_global]
    refine ⟨0, ?_⟩
    cases init with
    | none => exact hall
    | some v => exact hall
  | comment cs =>
    have hplain : ∀ c ∈ commentChars, c.toNat < 0x80 ∧ c ≠ '\n' :=
      plain_of_all (by decide +kernel)
    have hall : Layout 2 ('/' :: '/' :: cs ++ '\n' :: rest) ws :=
      .comment (fun c hc => hplain c (h c hc)) hrest
    have htext : ((Piece.comment cs).text mark).toList ++ rest =
        '/' :: '/' :: cs ++ '\n' :: rest := by
      show ("//" ++ String.ofList cs ++ "\n").toList ++ rest = _
      simp only [String.toList_append, String.toList_ofList, List.append_assoc]
      rfl
    rw [htext]
    exact ⟨2, hall⟩
  | function f =>
    have hfunctions := hadd.functions
    rw [Names.add, List.length_append, List.length_singleton, ← h.number] at hfunctions
    have hlines := Func.lines hm h hnames hfunctions hrest
    rw [Piece.items, List.flatMap_singleton]
    exact hlines

end

/-- A piece takes nothing away. -/
theorem Names.le_add (names : Names) (p : Piece) :
    names.aliases ≤ (names.add p).aliases ∧ names.globals ≤ (names.add p).globals ∧
      names.functions.length ≤ (names.add p).functions.length := by
  cases p with
  | function f =>
    refine ⟨Nat.le_refl _, Nat.le_refl _, ?_⟩
    rw [Names.add, List.length_append]
    exact Nat.le_add_right _ _
  | _ => simp [Names.add]

theorem Names.small_of_add {names : Names} {p : Piece} (h : (names.add p).Small) : names.Small := by
  obtain ⟨ha, hg, hf⟩ := names.le_add p
  exact ⟨Nat.le_trans ha h.aliases, Nat.le_trans hg h.globals, Nat.le_trans hf h.functions⟩

namespace Pieces

variable {names names' : Names} {ps : List Piece} (h : Pieces names ps names')
include h

theorem small (hsmall : names'.Small) : names.Small := by
  induction h with
  | nil => exact hsmall
  | cons _ _ ih => exact Names.small_of_add (ih hsmall)

/-- There are no more declarations than pieces. -/
theorem count : names'.aliases ≤ names.aliases + ps.length ∧
    names'.globals ≤ names.globals + ps.length ∧
    names'.functions.length ≤ names.functions.length + ps.length := by
  induction h with
  | nil => exact ⟨Nat.le_refl _, Nat.le_refl _, Nat.le_refl _⟩
  | @cons names names' p ps _ _ ih =>
    obtain ⟨ha, hg, hf⟩ := ih
    have hadd : (names.add p).aliases ≤ names.aliases + 1 ∧
        (names.add p).globals ≤ names.globals + 1 ∧
        (names.add p).functions.length ≤ names.functions.length + 1 := by
      cases p <;> simp [Names.add]
    rw [List.length_cons]
    omega

theorem lines {mark : String} (hm : IsMark mark) (hsmall : names'.Small) :
    Lines (ps.flatMap fun p => (p.text mark).toList)
      ((ps.flatMap (·.items mark)).flatMap Phrase.Item.tokens) := by
  induction h with
  | nil => exact .nil
  | cons hp hs ih =>
    have hadd := hs.small hsmall
    have hline := Piece.lines hm hp (Names.small_of_add hadd) hadd
    rw [List.flatMap_cons, List.flatMap_cons, List.flatMap_append]
    exact hline.append (ih hsmall)

end Pieces

/-- The text of a program is laid out for the tokens of its phrases. -/
theorem Pieces.exists_layout {mark : String} (hm : IsMark mark) {names : Names} {ps : List Piece}
    (h : Pieces .empty ps names) (hlength : ps.length < UInt64.size) :
    ∃ n, Layout n (String.join (ps.map (·.text mark))).toList
      ((ps.flatMap (·.items mark)).flatMap Phrase.Item.tokens) := by
  have hsmall : names.Small := by
    obtain ⟨ha, hg, hf⟩ := h.count
    rw [Names.empty, Nat.zero_add] at ha hg
    rw [Names.empty, List.length_nil, Nat.zero_add] at hf
    exact ⟨by omega, by omega, by omega⟩
  obtain ⟨n, hlayout⟩ := h.lines hm hsmall .nil
  rw [List.append_nil, List.append_nil] at hlayout
  rw [String.toList_join, List.flatMap_map]
  exact ⟨n, hlayout⟩

end Sample

end ThreeAddress
