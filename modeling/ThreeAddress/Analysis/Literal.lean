import ThreeAddress.Diagnostic
import ThreeAddress.Ty

namespace ThreeAddress

/-- An integer has to fit in 64 bits. -/
def literalFaults (t : Token) : List Diagnostic :=
  let cs := t.lexeme.toList
  if t.kind = .number ∧ ¬ Numeral.isFloat cs ∧ (Numeral.value? cs).isNone then
    [.semantic s!"integer literal `{t.lexeme}` does not fit in 64 bits" t]
  else []

/-- A problem unless two known types agree. -/
def mismatch (want got : Option Ty) (report : Ty → Ty → Diagnostic) : List Diagnostic :=
  match want, got with
  | some want, some got => if want = got then [] else [report want got]
  | _, _ => []

/-- A name is declared with one type and starts with a value of another. -/
def initMismatch (name : String) (site : Token) (want got : Ty) : Diagnostic :=
  .semantic s!"type mismatch: `{name}` is declared `{want.text}` but initialized with `{got.text}`"
    site

end ThreeAddress
