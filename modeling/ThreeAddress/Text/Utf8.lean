namespace ThreeAddress.Text

/-- A character under way: its bits so far, the octets owed after the next one, and the least and
greatest value of the next one. -/
structure Pending where
  bits : Nat
  owed : Nat
  low : UInt8
  high : UInt8
  deriving DecidableEq

/-- What an octet completes (`none` for an ill-formed piece), and what is then under way. -/
abbrev Decoded := List (Option Char) × Option Pending

/-- The first octet of a character. -/
def first (b : UInt8) : Decoded :=
  if b < 0x80 then ([some (Char.ofNat b.toNat)], none)
  else if 0xC2 ≤ b && b ≤ 0xDF then ([], some ⟨b.toNat - 0xC0, 0, 0x80, 0xBF⟩)
  else if b == 0xE0 then ([], some ⟨0, 1, 0xA0, 0xBF⟩)
  else if b == 0xED then ([], some ⟨0xD, 1, 0x80, 0x9F⟩)
  else if 0xE1 ≤ b && b ≤ 0xEF then ([], some ⟨b.toNat - 0xE0, 1, 0x80, 0xBF⟩)
  else if b == 0xF0 then ([], some ⟨0, 2, 0x90, 0xBF⟩)
  else if b == 0xF4 then ([], some ⟨4, 2, 0x80, 0x8F⟩)
  else if 0xF1 ≤ b && b ≤ 0xF3 then ([], some ⟨b.toNat - 0xF0, 2, 0x80, 0xBF⟩)
  else ([none], none)

/-- An octet that cannot go on with the character under way starts one of its own. -/
def advance : Option Pending → UInt8 → Decoded
  | none, b => first b
  | some p, b =>
    if p.low ≤ b && b ≤ p.high then
      let bits := p.bits * 64 + (b.toNat - 0x80)
      match p.owed with
      | 0 => ([some (Char.ofNat bits)], none)
      | owed + 1 => ([], some ⟨bits, owed, 0x80, 0xBF⟩)
    else
      let (cs, next) := first b
      (none :: cs, next)

def decodeFrom : Option Pending → List UInt8 → List (Option Char)
  | none, [] => []
  | some _, [] => [none]
  | p, b :: rest =>
    let (cs, next) := advance p b
    cs ++ decodeFrom next rest

/-- The characters of a text, `none` where a piece is ill-formed. -/
def decode (bytes : List UInt8) : List (Option Char) := decodeFrom none bytes

def decodeLossy (bytes : List UInt8) : List Char :=
  (decode bytes).map (·.getD '�')

def decodeStrict? (bytes : List UInt8) : Option (List Char) := (decode bytes).mapM id

/-- Text of octets that are all ASCII. -/
def ascii (bytes : List UInt8) : List Char := bytes.map fun b => Char.ofNat b.toNat

theorem decode_ascii (bytes : List UInt8) (h : ∀ b ∈ bytes, b < 0x80) :
    decode bytes = (ascii bytes).map some := by
  induction bytes with
  | nil => rfl
  | cons b rest ih =>
    have hb : b < 0x80 := h b (by simp)
    have hr := ih fun x hx => h x (by simp [hx])
    simp only [decode] at hr
    simp [decode, decodeFrom, advance, first, hb, ascii, hr]

/-- On ASCII lossy reading changes nothing. -/
theorem decodeLossy_ascii (bytes : List UInt8) (h : ∀ b ∈ bytes, b < 0x80) :
    decodeLossy bytes = ascii bytes := by
  simp [decodeLossy, decode_ascii bytes h, Function.comp_def]

end ThreeAddress.Text
