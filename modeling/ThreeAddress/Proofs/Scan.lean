import ThreeAddress.Proofs.Results
import ThreeAddress.Proofs.Runs

namespace ThreeAddress

/-- A cursor that has met no end, or has nothing ahead. -/
structure Cursor.Sound (c : Cursor) : Prop where
  whole : c.broken = none
  fresh : c.tail = .none
  ended : c.atEnd = true → c.rest = []

theorem Cursor.Sound.atEnd {c : Cursor} (h : c.Sound) (hne : c.rest ≠ []) : c.atEnd = false := by
  rw [Bool.eq_false_iff]
  exact fun hend => hne (h.ended hend)

theorem Cursor.Sound.skipLine {c : Cursor} (h : c.Sound) :
    ∃ c', c.skipLine = (.ok (), c') ∧ c'.Sound ∧
      c'.rest = c.rest.dropWhile (· != Run.newline) := by
  refine ⟨_, Cursor.skipLine_eq h.whole, ⟨h.whole, h.fresh, fun hend => ?_⟩, rfl⟩
  rcases Bool.or_eq_true_iff.mp hend with hend | hend
  · exact List.isEmpty_iff.mp hend
  · simp [h.ended hend]

namespace Stream

/-- The bytes ahead are blanks and a run behind them. -/
structure Ahead (st : Stream) (blanks : List UInt8) (b : UInt8) (more : List UInt8) : Prop where
  rest : st.cursor.rest = blanks ++ b :: more
  blanks : ∀ x ∈ blanks, Run.isBlank x = true
  first : Run.isBlank b = false

theorem Ahead.takeWhile {st : Stream} {blanks : List UInt8} {b : UInt8} {more : List UInt8}
    (h : st.Ahead blanks b more) : st.cursor.rest.takeWhile Run.isBlank = blanks := by
  rw [h.rest, List.takeWhile_append_of_pos h.blanks, List.takeWhile_cons_of_neg (by simp [h.first]),
    List.append_nil]

theorem Ahead.dropWhile {st : Stream} {blanks : List UInt8} {b : UInt8} {more : List UInt8}
    (h : st.Ahead blanks b more) : st.cursor.rest.dropWhile Run.isBlank = b :: more := by
  rw [h.rest, List.dropWhile_append_of_pos h.blanks, List.dropWhile_cons_of_neg (by simp [h.first])]

/-- Reads the run that an input starts with, from where the stream stands. -/
def read (b : UInt8) (more : List UInt8) (st : Stream) : Scanned × Stream :=
  let text := (b :: more).take (Run.length (b :: more))
  let after := (b :: more).drop (Run.length (b :: more))
  let next : Stream :=
    ⟨⟨after, none, after.isEmpty, .none⟩, st.file, st.line, st.column + text.length⟩
  match Run.classify b with
  | .word => (scanWord st.here text, next)
  | .number => (scanNumber st.here text, next)
  | .symbol => scanSymbols st.here text next

theorem read_ne_finished (b : UInt8) (more : List UInt8) (st : Stream) (eof : Token) :
    (read b more st).1 ≠ .finished eof := by
  unfold read
  simp only
  split
  · intro h
    cases h
  · unfold scanNumber
    simp only
    split <;> (intro h; cases h)
  · unfold scanSymbols
    simp only
    split
    · intro h
      cases h
    · split <;> (intro h; cases h)
    · intro h
      cases h

theorem sound_start (file : String) (s : List UInt8) :
    (start file (.ofBytes s)).cursor.Sound where
  whole := rfl
  fresh := rfl
  ended := nofun

theorem skip_at (b : Blank) (st : Stream) (c : Cursor) :
    skip b { st with cursor := c } = { skip b st with cursor := c } := by
  unfold skip
  split <;> rfl

section
variable {st : Stream} (h : st.cursor.Sound)
include h

/-- Blanks alone lead to the end. -/
theorem scan_of_blank (hb : ∀ b ∈ st.cursor.rest, Run.isBlank b = true) :
    ∃ st', st.scan = (.finished ⟨.eof, "", (skip (.of st.cursor.rest) st).here⟩, st') := by
  have hnext : ∃ c, st.cursor.next = (.ok none, c) ∧ c.tail = .of st.cursor.rest := by
    cases hend : st.cursor.atEnd with
    | true =>
      refine ⟨_, Cursor.next_of_atEnd hend, ?_⟩
      rw [h.ended hend, h.fresh]
      rfl
    | false =>
      have hdrop : st.cursor.rest.dropWhile Run.isBlank = [] := List.dropWhile_eq_nil_iff.mpr hb
      exact ⟨_, Cursor.next_of_blank h.whole hend hdrop, rfl⟩
  obtain ⟨c, hc, htail⟩ := hnext
  have hhere : (skip c.tail { st with cursor := c }).here = (skip c.tail st).here := by
    rw [skip_at c.tail st c]
    rfl
  refine ⟨skip c.tail { st with cursor := c }, ?_⟩
  rw [scan, hc, ← htail, ← hhere]

theorem scan_of_run {blanks more : List UInt8} {b : UInt8} (hahead : st.Ahead blanks b more)
    (hshort : Run.length (b :: more) ≤ runLimit) :
    st.scan = read b more (skip (.of blanks) st) := by
  have hend : st.cursor.atEnd = false := h.atEnd (by simp [hahead.rest])
  rw [scan, Cursor.next_of_short h.whole hend hahead.dropWhile hshort, hahead.takeWhile,
    h.fresh, read]
  simp only [skip_at]
  cases Run.classify b <;> rfl

/-- A run that is too long is reported in front of the blanks. -/
theorem scan_of_long {blanks more : List UInt8} {b : UInt8} (hahead : st.Ahead blanks b more)
    (hlong : runLimit < Run.length (b :: more)) :
    ∃ st', st.scan = (.failed ⟨.tooLong, st.here⟩ [], st') := by
  have hend : st.cursor.atEnd = false := h.atEnd (by simp [hahead.rest])
  obtain ⟨c, hnext⟩ := Cursor.next_of_long hend hahead.dropWhile hlong
  refine ⟨{ st with cursor := c }, ?_⟩
  rw [scan, hnext]
  rfl

/-- What one scan gives. -/
theorem scan_cases :
    ((∀ b ∈ st.cursor.rest, Run.isBlank b = true) ∧
      ∃ st', st.scan = (.finished ⟨.eof, "", (skip (.of st.cursor.rest) st).here⟩, st')) ∨
    ∃ blanks b more, st.Ahead blanks b more ∧
      (Run.length (b :: more) ≤ runLimit ∧ st.scan = read b more (skip (.of blanks) st) ∨
        runLimit < Run.length (b :: more) ∧
          ∃ st', st.scan = (.failed ⟨.tooLong, st.here⟩ [], st')) := by
  have hmax := Run.maximal_takeWhile Run.isBlank st.cursor.rest
  cases hdrop : st.cursor.rest.dropWhile Run.isBlank with
  | nil =>
    have hblank := List.dropWhile_eq_nil_iff.mp hdrop
    exact .inl ⟨hblank, scan_of_blank h hblank⟩
  | cons b more =>
    have hrest : st.cursor.rest = st.cursor.rest.takeWhile Run.isBlank ++ b :: more := by
      rw [← hdrop, List.takeWhile_append_dropWhile]
    have hahead : st.Ahead (st.cursor.rest.takeWhile Run.isBlank) b more :=
      ⟨hrest, hmax.all, hmax.stop b (by rw [hdrop]; rfl)⟩
    refine .inr ⟨_, b, more, hahead, ?_⟩
    rcases Nat.lt_or_ge runLimit (Run.length (b :: more)) with hlong | hshort
    · exact .inr ⟨hlong, scan_of_long h hahead hlong⟩
    · exact .inl ⟨hshort, scan_of_run h hahead hshort⟩

theorem blank_of_finished {eof : Token} {next : Stream} (hs : st.scan = (.finished eof, next)) :
    (∀ b ∈ st.cursor.rest, Run.isBlank b = true) ∧
      eof = ⟨.eof, "", (skip (.of st.cursor.rest) st).here⟩ := by
  rcases scan_cases h with ⟨hblank, _, hscan⟩ | ⟨_, b, more, -, ⟨-, hscan⟩ | ⟨-, _, hscan⟩⟩
  · rw [hscan] at hs
    cases hs
    exact ⟨hblank, rfl⟩
  · rw [hscan] at hs
    exact absurd (congrArg Prod.fst hs) (read_ne_finished b more _ eof)
  · rw [hscan] at hs
    cases hs

theorem ahead_of_tokens {ts : List Token} {next : Stream} (hs : st.scan = (.tokens ts, next)) :
    ∃ blanks b more, st.Ahead blanks b more ∧ Run.length (b :: more) ≤ runLimit ∧
      read b more (skip (.of blanks) st) = (.tokens ts, next) := by
  rcases scan_cases h with
    ⟨-, _, hscan⟩ | ⟨blanks, b, more, hahead, ⟨hshort, hscan⟩ | ⟨-, _, hscan⟩⟩
  · rw [hscan] at hs
    cases hs
  · exact ⟨blanks, b, more, hahead, hshort, hscan.symm.trans hs⟩
  · rw [hscan] at hs
    cases hs

end

variable {st : Stream} {budget : Nat → Budget} {pull : Nat}

theorem items_of_tokens {ts : List Token} {next : Stream} (hb : (budget pull).check = none)
    (hs : st.scan = (.tokens ts, next)) :
    st.items budget pull = ts.map .ok ++ next.items budget (pull + ts.length) := by
  rw [items, hb]
  simp only
  split
  · next hscan =>
    cases hs.symm.trans hscan
    rfl
  · next hscan => cases hs.symm.trans hscan
  · next hscan => cases hs.symm.trans hscan

theorem items_of_finished {eof : Token} {next : Stream} (hb : (budget pull).check = none)
    (hs : st.scan = (.finished eof, next)) : st.items budget pull = [.ok eof] := by
  rw [items, hb]
  simp only
  split
  · next hscan => cases hs.symm.trans hscan
  · next hscan =>
    cases hs.symm.trans hscan
    rfl
  · next hscan => cases hs.symm.trans hscan

theorem items_of_failed {e : LexError} {ts : List Token} {next : Stream}
    (hb : (budget pull).check = none) (hs : st.scan = (.failed e ts, next)) :
    st.items budget pull = .error e :: ts.map .ok := by
  rw [items, hb]
  simp only
  split
  · next hscan => cases hs.symm.trans hscan
  · next hscan => cases hs.symm.trans hscan
  · next hscan =>
    cases hs.symm.trans hscan
    rfl

theorem items_of_exhausted {e : Exhausted} (hb : (budget pull).check = some e) :
    st.items budget pull = [.error ⟨.exhausted e, st.here⟩] := by
  rw [items, hb]

end Stream

end ThreeAddress
