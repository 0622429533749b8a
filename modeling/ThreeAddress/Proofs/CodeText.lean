import ThreeAddress.Proofs.Digits
import ThreeAddress.Proofs.Lowering
import ThreeAddress.Proofs.Printing
import ThreeAddress.Proofs.Whereabouts

namespace ThreeAddress

/-- The pieces of a text between blanks. -/
def Text.words (s : String) : List String := (s.toList.splitOn ' ').map String.ofList

def Operator.ofSymbol? (s : String) : Option Operator :=
  (TokenKind.all.filterMap ofKind?).find? (·.symbol = s)

namespace Operand

/-- A temporary, an integer or a name, by how it begins. -/
def ofChars? : List Char → Option Operand
  | [] => none
  | '_' :: 't' :: digits => (Numeral.digitsValue 10 digits).map .temp
  | c :: cs =>
    if c.isDigit then (Numeral.digitsValue 10 (c :: cs)).map .int
    else some (.name (String.ofList (c :: cs)))

def ofText? (s : String) : Option Operand :=
  if s = "true" then some (.bool true)
  else if s = "false" then some (.bool false)
  else if Numeral.isFloat s.toList then some (.float s)
  else ofChars? s.toList

/-- An operand with a comma behind it. -/
def ofListed? (s : String) : Option Operand :=
  if s.toList.getLast? = some ',' then ofText? (String.ofList s.toList.dropLast) else none

end Operand

namespace Instruction

open Operand

/-- An instruction of one operand, by its first word. -/
def ofKeyword? (word : String) (a : Operand) : Option Instruction :=
  if word = "global" then some (.global a)
  else if word = "param_in" then some (.paramIn a)
  else if word = "param" then some (.param a)
  else if word = "return" then some (.ret a)
  else if word = "endfunc" then some (.endFunc a)
  else none

def ofWords? : List String → Option Instruction
  | [word, a] => (ofText? a).bind (ofKeyword? word)
  | [x, middle, a] =>
    if middle = "=" then return .copy (← ofText? x) (← ofText? a)
    else if x = "func" then return ⟨.func, ← ofListed? middle, ← ofText? a, none⟩
    else if x = "call" then return ⟨.call, ← ofListed? middle, ← ofText? a, none⟩
    else none
  | [x, "=", a, middle, b] =>
    match Operator.ofSymbol? middle with
    | some op => return .binary op (← ofText? x) (← ofText? a) (← ofText? b)
    | none =>
      if a = "call" then return ⟨.call, ← ofListed? middle, ← ofText? b, ← ofText? x⟩ else none
  | _ => none

/-- Reads an instruction from its text. -/
def ofText? (s : String) : Option Instruction := ofWords? (Text.words s)

/-- The words that the text of an instruction is made of. -/
def words (x : Instruction) : List String :=
  match x.op with
  | .global => ["global", operandText x.result]
  | .copy => [operandText x.result, "=", operandText x.arg1]
  | .binary op => [operandText x.result, "=", operandText x.arg1, op.symbol, operandText x.arg2]
  | .func => ["func", operandText x.arg1 ++ ",", operandText x.arg2]
  | .paramIn => ["param_in", operandText x.result]
  | .param => ["param", operandText x.arg1]
  | .call =>
    if x.result.isSome then
      [operandText x.result, "=", "call", operandText x.arg1 ++ ",", operandText x.arg2]
    else ["call", operandText x.arg1 ++ ",", operandText x.arg2]
  | .ret => ["return", operandText x.arg1]
  | .endFunc => ["endfunc", operandText x.arg1]

section
variable (op : Operator) (x a b f : Operand) (n : Nat)

@[simp] theorem words_global : (global x).words = ["global", x.text] := rfl

@[simp] theorem words_copy : (copy x a).words = [x.text, "=", a.text] := rfl

@[simp] theorem words_binary :
    (binary op x a b).words = [x.text, "=", a.text, op.symbol, b.text] := rfl

@[simp] theorem words_func : (func f n).words = ["func", f.text ++ ",", (int n).text] := rfl

@[simp] theorem words_paramIn : (paramIn x).words = ["param_in", x.text] := rfl

@[simp] theorem words_param : (param a).words = ["param", a.text] := rfl

@[simp] theorem words_call_none :
    (call none f n).words = ["call", f.text ++ ",", (int n).text] := rfl

@[simp] theorem words_call_some :
    (call (some x) f n).words = [x.text, "=", "call", f.text ++ ",", (int n).text] := rfl

@[simp] theorem words_ret : (ret a).words = ["return", a.text] := rfl

@[simp] theorem words_endFunc : (endFunc f).words = ["endfunc", f.text] := rfl

end

theorem toList_text (x : Instruction) :
    x.text.toList = [' '].intercalate (x.words.map String.toList) := by
  obtain ⟨op, arg1, arg2, result⟩ := x
  cases op with
  | call => cases result <;> simp [text, words, toString]
  | _ => simp [text, words, toString]

end Instruction

theorem Text.words_intercalate {s : String} {ws : List String} (hne : ws ≠ [])
    (hb : ∀ w ∈ ws, ' ' ∉ w.toList) (h : s.toList = [' '].intercalate (ws.map String.toList)) :
    Text.words s = ws := by
  have hsplit : s.toList.splitOn ' ' = ws.map String.toList := by
    rw [h]
    exact List.splitOn_intercalate ' ' (List.forall_mem_map.mpr hb) (by simpa using hne)
  rw [Text.words, hsplit, List.map_map]
  simp [Function.comp_def]

namespace Operand

/-- Names are words that are not reserved, and floats are digits and a point. -/
def Legible : Operand → Prop
  | .name s => (∃ c ∈ s.toList.head?, c.isAlpha = true) ∧
      (∀ c ∈ s.toList, c.isAlphanum = true) ∧ TokenKind.ofReserved? s = none
  | .float s => Numeral.isFloat s.toList = true ∧ ∀ c ∈ s.toList, c.isDigit = true ∨ c = '.'
  | _ => True

/-- What characters an operand is written with. -/
def isPlain (c : Char) : Bool := c.isAlphanum || c == '_' || c == '.'

/-- No digit is a letter. -/
theorem isAlpha_of_isDigit {c : Char} (h : c.isDigit = true) : c.isAlpha = false :=
  Text.forall_ascii (p := fun c => c.isDigit = true → c.isAlpha = false) (by decide)
    (Text.lt_of_isAlphanum (Numeral.isAlphanum_of_isDigit h)) h

theorem isPlain_of_isDigit {c : Char} (h : c.isDigit = true) : isPlain c = true := by
  simp [isPlain, Char.isAlphanum, h]

theorem plain_toDigits (n : Nat) : ∀ c ∈ Nat.toDigits 10 n, isPlain c = true := fun c hc =>
  isPlain_of_isDigit (Nat.isDigit_of_mem_toDigits (by decide) (by decide) hc)

theorem toList_temp (n : Nat) : (temp n).text.toList = '_' :: 't' :: Nat.toDigits 10 n := by
  simp [text, toString]

theorem toList_int (v : Nat) : (int v).text.toList = Nat.toDigits 10 v := Nat.toList_repr

theorem Legible.plain {a : Operand} (h : a.Legible) : ∀ c ∈ a.text.toList, isPlain c = true := by
  cases a with
  | name s =>
    intro c hc
    simp [isPlain, h.2.1 c hc]
  | temp n =>
    rw [toList_temp, List.forall_mem_cons, List.forall_mem_cons]
    exact ⟨rfl, rfl, plain_toDigits n⟩
  | int v =>
    rw [toList_int]
    exact plain_toDigits v
  | float s =>
    intro c hc
    rcases h.2 c hc with hdigit | rfl
    · exact isPlain_of_isDigit hdigit
    · rfl
  | bool b =>
    rw [← List.all_eq_true]
    cases b <;> decide

theorem Legible.not_mem {a : Operand} (h : a.Legible) {c : Char} (hc : isPlain c = false) :
    c ∉ a.text.toList := by
  intro hmem
  rw [h.plain c hmem] at hc
  cases hc

/-- What is neither a truth value nor has a point is told by how it begins. -/
theorem ofText?_of_chars {s : String} (hs : '.' ∉ s.toList)
    (hb : TokenKind.ofReserved? s = none) : ofText? s = ofChars? s.toList := by
  have hfloat : Numeral.isFloat s.toList = false := by simpa [Numeral.isFloat] using hs
  rw [ofText?, if_neg, if_neg, hfloat, if_neg Bool.false_ne_true]
  · rintro rfl
    cases hb
  · rintro rfl
    cases hb

/-- Reserved words begin with a letter. -/
theorem ofReserved?_eq_none {s : String} (h : s.toList.head?.any Char.isAlpha = false) :
    TokenKind.ofReserved? s = none := by
  have hreserved : TokenKind.reserved.all (·.1.toList.head?.any Char.isAlpha) = true := by decide
  rw [TokenKind.ofReserved?, Option.map_eq_none_iff, List.find?_eq_none]
  rintro ⟨word, k⟩ hp heq
  obtain rfl : word = s := by simpa using heq
  exact Bool.false_ne_true (h.symm.trans (List.all_eq_true.mp hreserved _ hp))

theorem ofChars?_cons {c : Char} (hc : c ≠ '_') (cs : List Char) :
    ofChars? (c :: cs) =
      if c.isDigit then (Numeral.digitsValue 10 (c :: cs)).map .int
      else some (.name (String.ofList (c :: cs))) := by
  rw [ofChars?]
  exact fun _ hline => absurd hline hc

theorem point_not_mem_toDigits (n : Nat) : '.' ∉ Nat.toDigits 10 n := fun hmem => by
  cases Nat.isDigit_of_mem_toDigits (by decide) (by decide) hmem

/-- An operand is read from its text. -/
theorem ofText?_text {a : Operand} (h : a.Legible) : ofText? a.text = some a := by
  cases a with
  | name s =>
    obtain ⟨⟨c, hc, halpha⟩, hall, hword⟩ := h
    obtain ⟨cs, hcs⟩ := List.head?_eq_some_iff.mp hc
    have hpoint : '.' ∉ s.toList := fun hmem => by cases hall '.' hmem
    have hdigit : ¬c.isDigit = true := fun hdigit => by
      cases halpha.symm.trans (isAlpha_of_isDigit hdigit)
    have hline : c ≠ '_' := by
      rintro rfl
      cases halpha
    rw [text, ofText?_of_chars hpoint hword, hcs, ofChars?_cons hline, if_neg hdigit, ← hcs,
      String.ofList_toList]
  | temp n =>
    have hpoint : '.' ∉ (temp n).text.toList := by
      rw [toList_temp]
      simp [point_not_mem_toDigits]
    have hword : TokenKind.ofReserved? (temp n).text = none :=
      ofReserved?_eq_none (by rw [toList_temp]; rfl)
    rw [ofText?_of_chars hpoint hword, toList_temp, ofChars?,
      Numeral.digitsValue_toDigits (by decide) (by decide)]
    rfl
  | int v =>
    obtain ⟨c, cs, hcs⟩ := List.exists_cons_of_ne_nil (Nat.toDigits_ne_nil (n := v) (b := 10))
    have hdigit : c.isDigit = true :=
      Nat.isDigit_of_mem_toDigits (by decide) (by decide) (hcs ▸ List.mem_cons_self)
    have hword : TokenKind.ofReserved? (int v).text = none := by
      refine ofReserved?_eq_none ?_
      rw [toList_int, hcs]
      exact isAlpha_of_isDigit hdigit
    have hline : c ≠ '_' := by
      rintro rfl
      cases hdigit
    rw [ofText?_of_chars (toList_int v ▸ point_not_mem_toDigits v) hword, toList_int, hcs,
      ofChars?_cons hline, if_pos hdigit, ← hcs,
      Numeral.digitsValue_toDigits (by decide) (by decide)]
    rfl
  | float s =>
    have ht : s ≠ "true" := by
      rintro rfl
      cases h.1
    have hf : s ≠ "false" := by
      rintro rfl
      cases h.1
    rw [text, ofText?, if_neg ht, if_neg hf, if_pos h.1]
  | bool b => cases b <;> rfl

theorem ofListed?_text {a : Operand} (h : a.Legible) : ofListed? (a.text ++ ",") = some a := by
  have hlist : (a.text ++ ",").toList = a.text.toList ++ [','] := String.toList_append
  rw [ofListed?, hlist, List.getLast?_concat, if_pos rfl, List.dropLast_concat,
    String.ofList_toList, ofText?_text h]

end Operand

namespace Operator

theorem ofSymbol?_symbol (op : Operator) : ofSymbol? op.symbol = some op := by
  cases op <;> decide

/-- No operator ends in a comma. -/
theorem ofSymbol?_comma (s : String) : ofSymbol? (s ++ ",") = none := by
  rw [ofSymbol?, List.find?_eq_none]
  intro op _ heq
  have hlast := congrArg (·.toList.getLast?) (of_decide_eq_true heq)
  simp only [String.toList_append] at hlast
  revert hlast
  cases op <;> simp [symbol]

theorem blank_not_mem_symbol (op : Operator) : ' ' ∉ op.symbol.toList := by
  cases op <;> decide

end Operator

namespace Instruction

/-- The forms of instructions that code has. -/
inductive Formed : Instruction → Prop
  | global {x : Operand} (hx : x.Legible) : Formed (.global x)
  | copy {x a : Operand} (hx : x.Legible) (ha : a.Legible) : Formed (.copy x a)
  | binary {op : Operator} {x a b : Operand} (hx : x.Legible) (ha : a.Legible) (hb : b.Legible) :
    Formed (.binary op x a b)
  | func {f : Operand} {params : Nat} (hf : f.Legible) : Formed (.func f params)
  | paramIn {x : Operand} (hx : x.Legible) : Formed (.paramIn x)
  | param {a : Operand} (ha : a.Legible) : Formed (.param a)
  | call {x : Option Operand} {f : Operand} {args : Nat} (hx : ∀ y ∈ x, y.Legible)
    (hf : f.Legible) : Formed (.call x f args)
  | ret {a : Operand} (ha : a.Legible) : Formed (.ret a)
  | endFunc {f : Operand} (hf : f.Legible) : Formed (.endFunc f)

variable {x : Instruction}

/-- No word of an instruction has a blank inside. -/
theorem Formed.blank_not_mem (h : Formed x) : ∀ w ∈ x.words, ' ' ∉ w.toList := by
  have hplain {a : Operand} (ha : a.Legible) : ' ' ∉ a.text.toList := ha.not_mem rfl
  have hint (n : Nat) : ' ' ∉ (Operand.int n).text.toList := hplain trivial
  cases h with
  | global hx => simp [hplain hx]
  | copy hx ha => simp [hplain hx, hplain ha]
  | @binary op _ _ _ hx ha hb => simp [hplain hx, hplain ha, hplain hb, op.blank_not_mem_symbol]
  | func hf => simp [hplain hf, hint]
  | paramIn hx => simp [hplain hx]
  | param ha => simp [hplain ha]
  | @call x _ _ hx hf =>
    cases x with
    | none => simp [hplain hf, hint]
    | some y => simp [hplain hf, hint, hplain (hx y rfl)]
  | ret ha => simp [hplain ha]
  | endFunc hf => simp [hplain hf]

/-- The words of an instruction are found between the blanks of its text. -/
theorem Formed.words_text (h : Formed x) : Text.words x.text = x.words := by
  refine Text.words_intercalate ?_ h.blank_not_mem x.toList_text
  cases h with
  | @call x _ _ hx hf => cases x <;> exact List.cons_ne_nil _ _
  | _ => exact List.cons_ne_nil _ _

theorem comma_ne_eq (s : String) : s ++ "," ≠ "=" := by
  intro h
  have hlast := congrArg (·.toList.getLast?) h
  simp at hlast

/-- An instruction is read from its text. -/
theorem Formed.ofText?_text (h : Formed x) : ofText? x.text = some x := by
  have hint (n : Nat) : Operand.ofText? (Operand.int n).text = some (.int n) :=
    Operand.ofText?_text trivial
  rw [Instruction.ofText?, h.words_text]
  cases h with
  | global hx => simp [ofWords?, Operand.ofText?_text hx, ofKeyword?]
  | copy hx ha => simp [ofWords?, Operand.ofText?_text hx, Operand.ofText?_text ha]
  | @binary op _ _ _ hx ha hb =>
    simp [ofWords?, Operand.ofText?_text hx, Operand.ofText?_text ha, Operand.ofText?_text hb,
      op.ofSymbol?_symbol]
  | func hf =>
    rw [words_func]
    simp [ofWords?, Operand.ofListed?_text hf, hint, comma_ne_eq, Instruction.func]
  | paramIn hx => simp [ofWords?, Operand.ofText?_text hx, ofKeyword?]
  | param ha => simp [ofWords?, Operand.ofText?_text ha, ofKeyword?]
  | @call x _ _ hx hf =>
    cases x with
    | none =>
      rw [words_call_none]
      simp [ofWords?, Operand.ofListed?_text hf, hint, comma_ne_eq, Instruction.call]
    | some y =>
      rw [words_call_some]
      simp [ofWords?, Operand.ofListed?_text hf, hint, Operand.ofText?_text (hx y rfl),
        Operator.ofSymbol?_comma, Instruction.call]
  | ret ha => simp [ofWords?, Operand.ofText?_text ha, ofKeyword?]
  | endFunc hf => simp [ofWords?, Operand.ofText?_text hf, ofKeyword?]

end Instruction

/-- Code can name or write the token. -/
structure Token.Legible (t : Token) : Prop where
  name : t.kind = .ident → (Operand.ofToken t).Legible
  float : t.kind = .number → Numeral.isFloat t.lexeme.toList = true →
    (Operand.float t.lexeme).Legible

theorem Tiles.longest_of_mem {file : String} {s before after : List UInt8} {us : List Token}
    (h : Tiles file s before us after) : ∀ t ∈ us, ∃ rest, t.Longest rest := by
  induction h with
  | start => exact List.forall_mem_nil _
  | blank _ _ ih => exact ih
  | comment _ _ _ ih => exact ih
  | token _ ht _ ih =>
    exact List.forall_mem_append.mpr ⟨ih, List.forall_mem_singleton.mpr ⟨_, ht⟩⟩

/-- A name is a word that is not reserved. -/
theorem Token.Longest.legible_name {t : Token} {rest : List UInt8} (h : t.Longest rest)
    (hl : t.Lexical) (hk : t.kind = .ident) : (Operand.ofToken t).Legible := by
  have hall := hl.ident hk
  cases h with
  | word hr hword =>
    refine ⟨?_, hall, ?_⟩
    · have hascii : ∀ c ∈ t.lexeme.toList, c.toNat < 0x80 := fun c hc =>
        Text.lt_of_isAlphanum (hall c hc)
      have hbytes : t.bytes = Text.octets t.lexeme.toList := by
        refine Token.bytes_of_ascii ?_ (Text.lt_of_mem_octets hascii)
        rw [Text.ascii_octets hascii, String.ofList_toList]
      cases hr with
      | word hf _ =>
        obtain ⟨b, hb, hletter⟩ := hf
        rw [hbytes, Text.head?_octets] at hb
        obtain ⟨c, hc, rfl⟩ := Option.map_eq_some_iff.mp hb
        rw [Text.isLetter_octet (hascii c (List.mem_of_mem_head? hc))] at hletter
        exact ⟨c, hc, hletter⟩
    · cases hres : TokenKind.ofReserved? t.lexeme with
      | none => rfl
      | some k =>
        have hs := TokenKind.spelling?_of_ofReserved? hres
        rw [hres, Option.getD_some, hk] at hword
        rw [← hword] at hs
        cases hs
  | number _ hnumber => cases hk.symm.trans hnumber
  | pair _ hpair =>
    have hs := TokenKind.spelling?_of_pair? hpair
    rw [hk] at hs
    cases hs
  | single _ hsingle =>
    have hs := TokenKind.spelling?_of_single? hsingle
    rw [hk] at hs
    cases hs

theorem Token.Lexical.legible_float {t : Token} (h : t.Lexical) (hk : t.kind = .number)
    (hf : Numeral.isFloat t.lexeme.toList = true) : (Operand.float t.lexeme).Legible := by
  have hcheck := h.number hk
  rw [Numeral.check, if_pos hf] at hcheck
  obtain ⟨hwhole, hfraction⟩ :=
    List.forall_mem_append.mp (Numeral.digits_of_checkFloat hcheck)
  refine ⟨hf, ?_⟩
  rw [← Numeral.splitPoint_append _ hf, List.forall_mem_append, List.forall_mem_cons]
  exact ⟨fun c hc => .inl (hwhole c hc), .inr rfl, fun c hc => .inl (hfraction c hc)⟩

theorem legible_tokenize {budget : Budget} {file : String} {s : Source} {ts : List Token}
    (h : tokenize budget file s = .ok ts) : ∀ t ∈ ts, t.Legible := by
  have hlex := lexical_tokenize h
  have hends : (Stream.start file s).cursor.EndsWhole := nofun
  obtain ⟨-, hwhole⟩ := Stream.from_items _ 0 hends h
  obtain ⟨bytes, broken⟩ := s
  obtain rfl : broken = none := hwhole
  have htiles := tokenize_tiles budget file bytes
  rw [show Source.ofBytes bytes = ⟨bytes, none⟩ from rfl, h] at htiles
  obtain ⟨us, eof, rfl, heof, -, htiles⟩ := htiles
  intro t ht
  refine ⟨fun hk => ?_, (hlex t ht).legible_float⟩
  rcases List.mem_append.mp ht with hu | hu
  · obtain ⟨rest, hlongest⟩ := htiles.longest_of_mem t hu
    exact hlongest.legible_name (hlex t ht) hk
  · rw [List.mem_singleton.mp hu, heof] at hk
    cases hk

namespace Code

variable {code : List Instruction} {symbols : SymbolTable}

theorem legible_value {t : Token} {a : Operand} (ht : t.Legible) (h : value t = .ok a) :
    a.Legible := by
  unfold value at h
  split at h
  · next hk =>
    cases h
    exact ht.name hk
  · split at h
    · next o ho =>
      cases h
      unfold Operand.ofLiteral? at ho
      split at ho
      · cases ho
        trivial
      · cases ho
        trivial
      · next hk =>
        split at ho
        · next hf =>
          cases ho
          exact ht.float hk hf
        · obtain ⟨v, -, rfl⟩ := Option.map_eq_some_iff.mp ho
          trivial
      · cases ho
    · cases h

theorem legible_zero {s : Option Symbol} {blame : Token} {a : Operand}
    (h : zero s blame = .ok a) : a.Legible := by
  unfold zero at h
  split at h
  · next ty _ =>
    cases h
    cases ty with
    | float =>
      have hall : "0.0".toList.all (fun c => c.isDigit || c == '.') = true := by decide
      exact ⟨by decide, fun c hc => by simpa using List.all_eq_true.mp hall c hc⟩
    | _ => trivial
  · cases h

theorem formed_call {dest : Option Operand} {f : Token} {args : List Token}
    (hd : ∀ x ∈ dest, x.Legible) (hf : (Operand.ofToken f).Legible) (ha : ∀ t ∈ args, t.Legible)
    (h : call dest f args = .ok code) : ∀ x ∈ code, x.Formed := by
  obtain ⟨ps, hps, rfl⟩ := call_eq_ok h
  refine List.forall_mem_append.mpr ⟨fun x hx => ?_, List.forall_mem_singleton.mpr (.call hd hf)⟩
  obtain ⟨t, ht, a, hvalue, rfl⟩ := exists_of_mem_left hps.flip hx
  exact .param (legible_value (ha t ht) hvalue)

/-- Code for an expression, whatever its destination. -/
def FormsInto (e : Expr) : Prop :=
  ∀ {dest : Operand} {temps n : Nat} {code : List Instruction}, dest.Legible →
    into e dest temps = .ok (code, n) → ∀ x ∈ code, x.Formed

theorem formed_spill {e : Expr} {temps n : Nat} {a : Operand} (hv : ∀ t ∈ e.values, t.Legible)
    (he : FormsInto e) (h : spill e temps (into e) = .ok (a, code, n)) :
    a.Legible ∧ ∀ x ∈ code, x.Formed := by
  rcases spill_eq_ok h with ⟨t, hleaf, ha, rfl, rfl⟩ | ⟨rfl, hinto⟩
  · have ht : t ∈ e.values := by rcases hleaf with rfl | rfl <;> exact List.mem_singleton_self t
    exact ⟨legible_value (hv t ht) ha, List.forall_mem_nil _⟩
  · have htemp : (Operand.temp temps).Legible := trivial
    exact ⟨htemp, he htemp hinto⟩

theorem formsInto {e : Expr} (hv : ∀ t ∈ e.values, t.Legible)
    (hc : ∀ t ∈ e.callees, (Operand.ofToken t).Legible) : FormsInto e := by
  induction e with
  | literal t =>
    intro dest temps n code hd h
    obtain ⟨a, ha, h⟩ := map_eq_ok.mp h
    cases h
    exact List.forall_mem_singleton.mpr
      (.copy hd (legible_value (hv t (List.mem_singleton_self t)) ha))
  | name t =>
    intro dest temps n code hd h
    obtain ⟨a, ha, h⟩ := map_eq_ok.mp h
    cases h
    exact List.forall_mem_singleton.mpr
      (.copy hd (legible_value (hv t (List.mem_singleton_self t)) ha))
  | call f args =>
    intro dest temps n code hd h
    obtain ⟨made, hcall, h⟩ := map_eq_ok.mp h
    cases h
    refine formed_call (fun x hx => ?_) (hc f (List.mem_singleton_self f)) hv hcall
    cases hx
    exact hd
  | binary op t lhs rhs hl hr =>
    intro dest temps n code hd h
    obtain ⟨hvl, hvr⟩ := List.forall_mem_append.mp hv
    obtain ⟨hcl, hcr⟩ := List.forall_mem_append.mp hc
    obtain ⟨l, left, k, r, right, hleft, hright, rfl⟩ := into_binary_eq_ok h
    obtain ⟨hl, hleft⟩ := formed_spill hvl (hl hvl hcl) hleft
    obtain ⟨hr, hright⟩ := formed_spill hvr (hr hvr hcr) hright
    rw [List.forall_mem_append, List.forall_mem_append, List.forall_mem_singleton]
    exact ⟨⟨hleft, hright⟩, .binary hd hl hr⟩

theorem formed_statement {func : Token} {s : Stmt} {temps n : Nat}
    (hv : ∀ t ∈ s.values, t.Legible) (hn : ∀ t ∈ s.names, (Operand.ofToken t).Legible)
    (h : statement symbols func s temps = .ok (code, n)) : ∀ x ∈ code, x.Formed := by
  cases s with
  | «local» name type init =>
    cases init with
    | none =>
      obtain ⟨v, hzero, h⟩ := bind_eq_ok.mp h
      cases h
      exact List.forall_mem_singleton.mpr
        (.copy (hn name (List.mem_singleton_self name)) (legible_zero hzero))
    | some e =>
      rw [statement, store_eq_into] at h
      obtain ⟨hname, hcallees⟩ := List.forall_mem_cons.mp hn
      exact formsInto hv hcallees hname h
  | assign target e =>
    rw [statement, store_eq_into] at h
    obtain ⟨hname, hcallees⟩ := List.forall_mem_cons.mp hn
    exact formsInto hv hcallees hname h
  | call f args =>
    obtain ⟨made, hcall, h⟩ := bind_eq_ok.mp h
    cases h
    have hnone : ∀ x ∈ (none : Option Operand), x.Legible := by
      intro x hx
      cases hx
    exact formed_call hnone (hn f (List.mem_singleton_self f)) hv hcall
  | ret keyword e =>
    obtain ⟨⟨a, made, k⟩, hspill, h⟩ := bind_eq_ok.mp h
    cases h
    rw [operand_eq_spill] at hspill
    obtain ⟨ha, hmade⟩ := formed_spill hv (formsInto hv hn) hspill
    exact List.forall_mem_append.mpr ⟨hmade, List.forall_mem_singleton.mpr (.ret ha)⟩

/-- The code of constructs is formed if that of each of them is. -/
theorem formed_constructs {table : GenerationTable} {func : Token} {ns : List Node} {p q : Phase}
    {temps : Nat}
    (hns : ∀ n ∈ ns, ∀ {temps k : Nat} {code : List Instruction},
      construct symbols func n temps = .ok (code, k) → ∀ x ∈ code, x.Formed)
    (h : constructs table symbols func p temps ns = .ok (code, q)) : ∀ x ∈ code, x.Formed := by
  induction ns generalizing p temps code with
  | nil =>
    cases h
    exact List.forall_mem_nil _
  | cons n ns ih =>
    obtain ⟨hn, hns⟩ := List.forall_mem_cons.mp hns
    rw [constructs] at h
    obtain ⟨p', -, h⟩ := bind_eq_ok.mp h
    obtain ⟨⟨made, k⟩, hmade, h⟩ := bind_eq_ok.mp h
    obtain ⟨⟨more, q'⟩, hmore, h⟩ := bind_eq_ok.mp h
    cases h
    exact List.forall_mem_append.mpr ⟨hn hmade, ih hns hmore⟩

theorem formed_global {name type : Token} {init : Option Token}
    (hn : (Operand.ofToken name).Legible) (hv : ∀ t ∈ init.toList, t.Legible)
    (h : global symbols name type init = .ok code) : ∀ x ∈ code, x.Formed := by
  rw [global] at h
  obtain ⟨a, ha, h⟩ := bind_eq_ok.mp h
  have hforms {v : Operand} (hv : v.Legible) :
      ∀ x ∈ [Instruction.global (.ofToken name), .copy (.ofToken name) v], x.Formed :=
    List.forall_mem_cons.mpr ⟨.global hn, List.forall_mem_singleton.mpr (.copy hn hv)⟩
  cases init with
  | none =>
    cases h
    exact hforms (legible_zero ha)
  | some t =>
    obtain ⟨v, hvalue, h⟩ := bind_eq_ok.mp h
    cases h
    exact hforms (legible_value (hv t (List.mem_singleton_self t)) hvalue)

/-- A function has the forms of its parameters and statements, whatever the phases. -/
theorem formed_function {table : GenerationTable} {header : Phrase.Header}
    {body : List Phrase.Stmt} {close : Phrase.TokenOf .rbrace} {p q : Phase}
    (hv : ∀ t ∈ (Phrase.Item.func header body close).decl.values, t.Legible)
    (hn : ∀ t ∈ (Phrase.Item.func header body close).decl.names, (Operand.ofToken t).Legible)
    (h : function table symbols p (Phrase.Item.func header body close).node
      (Phrase.Item.function header body close) = .ok (code, q)) : ∀ x ∈ code, x.Formed := by
  have hname : (Operand.ofToken header.name).Legible := hn _ (List.mem_cons_self ..)
  rw [function, filter_children] at h
  obtain ⟨⟨made, q'⟩, hmade, h⟩ := bind_eq_ok.mp h
  cases h
  refine List.forall_mem_append.mpr ⟨List.forall_mem_cons.mpr ⟨.func hname, ?_⟩,
    List.forall_mem_singleton.mpr (.endFunc hname)⟩
  refine formed_constructs (fun n hmem => ?_) hmade
  simp only [List.mem_append, List.mem_map, List.mem_singleton] at hmem
  rcases hmem with ⟨q, hq, rfl⟩ | ⟨s, hs, rfl⟩ | rfl
  · intro temps k code hc
    have hparam : q.name.1 ∈ (Phrase.Item.func header body close).decl.names := by
      simp only [Phrase.Item.decl, Decl.names, List.map_map, List.cons_append, List.mem_cons,
        List.mem_append, List.mem_map]
      exact .inr (.inl ⟨q, hq, rfl⟩)
    obtain ⟨rfl, -⟩ := Prod.mk.inj (Except.ok.inj hc)
    exact List.forall_mem_singleton.mpr (.paramIn (hn _ hparam))
  · intro temps k code hc
    rw [construct_stmt] at hc
    have hstmt : s.stmt ∈ body.map Phrase.Stmt.stmt := List.mem_map_of_mem hs
    refine formed_statement (fun t ht => hv t ?_) (fun t ht => hn t ?_) hc
    · exact List.mem_flatMap.mpr ⟨s.stmt, hstmt, ht⟩
    · exact List.mem_append_right _ (List.mem_flatMap.mpr ⟨s.stmt, hstmt, ht⟩)
  · intro temps k code hc
    obtain ⟨rfl, -⟩ := Prod.mk.inj (Except.ok.inj hc)
    exact List.forall_mem_nil _

theorem formed_item {table : GenerationTable} {i : Phrase.Item} {p q : Phase}
    (hv : ∀ t ∈ i.decl.values, t.Legible) (hn : ∀ t ∈ i.decl.names, (Operand.ofToken t).Legible)
    (h : item table symbols p i.node = .ok (code, q)) : ∀ x ∈ code, x.Formed := by
  rw [item, Phrase.Item.ofNode_node] at h
  obtain ⟨_, hread, h⟩ := bind_eq_ok.mp h
  cases hread
  cases i with
  | type keyword name eq target semi =>
    cases h
    exact List.forall_mem_nil _
  | «global» keyword name colon ty init semi =>
    obtain ⟨made, hmade, h⟩ := bind_eq_ok.mp h
    cases h
    exact formed_global (hn _ (List.mem_singleton_self _)) hv hmade
  | func header body close => exact formed_function hv hn h

theorem formed_items {table : GenerationTable} {file : String} {eof : Token}
    {is : List Phrase.Item} {p : Phase}
    (hv : ∀ i ∈ is, ∀ t ∈ i.decl.values, t.Legible)
    (hn : ∀ i ∈ is, ∀ t ∈ i.decl.names, (Operand.ofToken t).Legible)
    (h : items table symbols file p (is.map Phrase.Item.node ++ [Node.leaf .finished eof]) =
      .ok code) :
    ∀ x ∈ code, x.Formed := by
  induction is generalizing p code with
  | nil =>
    rw [List.map_nil, List.nil_append, items] at h
    obtain ⟨p', -, h⟩ := bind_eq_ok.mp h
    obtain ⟨⟨made, q⟩, hmade, h⟩ := bind_eq_ok.mp h
    cases hmade
    simp only at h
    split at h
    · cases h
      exact List.forall_mem_nil _
    · cases h
  | cons i is ih =>
    obtain ⟨hv, hvs⟩ := List.forall_mem_cons.mp hv
    obtain ⟨hn, hns⟩ := List.forall_mem_cons.mp hn
    rw [List.map_cons, List.cons_append, items] at h
    obtain ⟨p', -, h⟩ := bind_eq_ok.mp h
    obtain ⟨⟨made, q⟩, hmade, h⟩ := bind_eq_ok.mp h
    have hmade := formed_item hv hn hmade
    simp only at h
    split at h
    · cases h
      exact hmade
    · obtain ⟨more, hmore, h⟩ := bind_eq_ok.mp h
      cases h
      exact List.forall_mem_append.mpr ⟨hmade, ih hvs hns hmore⟩

end Code

/-- Code of a tree that was lexed and parsed, by whatever phases and symbols. -/
def Instruction.Emitted (x : Instruction) : Prop :=
  ∃ (t : Tree) (table : GenerationTable) (symbols : SymbolTable) (code : List Instruction),
    t.FromSource ∧ t.emit table symbols = .ok code ∧ x ∈ code

theorem Instruction.Emitted.formed {x : Instruction} (h : x.Emitted) : x.Formed := by
  obtain ⟨t, table, symbols, code, ⟨budget, file, s, ts, hl, hp⟩, hcode, hx⟩ := h
  obtain ⟨f, rest, rfl, rfl⟩ := Phrase.parse_ok hp
  have hlegible : ∀ i ∈ f.items, ∀ t ∈ i.tokens, t.Legible := by
    intro i hi t ht
    have hmem : t ∈ f.items.flatMap Phrase.Item.tokens := List.mem_flatMap.mpr ⟨i, hi, ht⟩
    exact legible_tokenize hl t (by simp only [Phrase.File.tokens, List.mem_append, hmem, true_or])
  refine Code.formed_items ?_ ?_ hcode x hx
  · intro i hi t ht
    exact hlegible i hi t (Phrase.Item.mem_values ht).2
  · intro i hi t ht
    obtain ⟨hk, ht⟩ := Phrase.Item.mem_names ht
    exact (hlegible i hi t ht).name hk

/-- The code of a text, in a batch of its own. -/
def Instruction.codeOf (file text : String) : Option (List Instruction) := do
  let t ← Tree.ofText? file text
  (t.emit Phase.table (Analysis.ofOutcomes [t]).symbols).toOption

theorem Instruction.emitted_of_mem {file text : String} {code : List Instruction}
    {x : Instruction} (h : codeOf file text = some code) (hx : x ∈ code) : x.Emitted := by
  obtain ⟨t, ht, h⟩ := Option.bind_eq_some_iff.mp h
  exact ⟨t, _, _, code, Tree.fromSource_of_ofText? ht, toOption_eq_some.mp h, hx⟩

/-- Different instructions of the code of sources that were lexed and parsed have different texts,
also if they are of different batches, and each is read from its text with all its operands. -/
theorem code_text_unambiguous {x y : Instruction} (hx : x.Emitted) (hy : y.Emitted) :
    (x.text = y.text → x = y) ∧ Instruction.ofText? x.text = some x := by
  refine ⟨fun heq => ?_, hx.formed.ofText?_text⟩
  have hread := hx.formed.ofText?_text
  rw [heq, hy.formed.ofText?_text] at hread
  exact (Option.some.inj hread).symm

/-- Names that are spelled like words of the code. -/
theorem code_text_unambiguous_keywords :
    let x := Instruction.param (.name "param")
    let y := Instruction.call (some (.temp 0)) (.name "call") 1
    x.Emitted ∧ y.Emitted ∧ x.text = "param param" ∧ y.text = "_t0 = call call, 1" ∧
      (x.text = y.text → x = y) ∧ Instruction.ofText? "param param" = some x ∧
      Instruction.ofText? "_t0 = call call, 1" = some y := by
  intro x y
  have hcode : Instruction.codeOf "t"
      "func call(param: int): int \x7b param = param + call(param); return param; \x7d" =
        some [.func (.name "call") 1, .paramIn (.name "param"), x, y,
          .binary .add (.name "param") (.name "param") (.temp 0), .ret (.name "param"),
          .endFunc (.name "call")] := by
    rw [Instruction.codeOf, Tree.ofText?_ofList]
    decide +kernel
  have hx : x.Emitted := Instruction.emitted_of_mem hcode (by simp)
  have hy : y.Emitted := Instruction.emitted_of_mem hcode (by simp)
  have htext : x.text = "param param" := by decide +kernel
  have htext' : y.text = "_t0 = call call, 1" := by decide +kernel
  obtain ⟨hinj, hread⟩ := code_text_unambiguous hx hy
  obtain ⟨-, hread'⟩ := code_text_unambiguous hy hx
  rw [htext] at hread
  rw [htext'] at hread'
  exact ⟨hx, hy, htext, htext', hinj, hread, hread'⟩

end ThreeAddress
