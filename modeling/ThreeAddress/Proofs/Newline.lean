import ThreeAddress.Proofs.Moving
import ThreeAddress.Proofs.Whereabouts

namespace ThreeAddress

/-- The place so many lines further down in a file. -/
def Site.down (file : String) (n : Nat) (s : Site) : Site := ⟨file, s.line + n, s.column⟩

namespace Stream

/-- One stream goes on where another does, further down in a file, with more bytes behind. -/
structure Follows (file : String) (n : Nat) (ext : List UInt8) (st st' : Stream) : Prop where
  sound : st.cursor.Sound
  sound' : st'.cursor.Sound
  rest : st'.cursor.rest = st.cursor.rest ++ ext
  here : st'.here = st.here.down file n

/-- What a run gives, with its tokens and its fault at other places. -/
def Scanned.move (m : Site → Site) : Scanned → Scanned
  | .tokens ts => .tokens (ts.map (Token.move m))
  | .finished eof => .finished (eof.move m)
  | .failed e ts => .failed { e with site := m e.site } (ts.map (Token.move m))

variable {file : String} {n : Nat} {ext : List UInt8} {st st' : Stream}

theorem skip_down (b : Blank) (h : st'.here = st.here.down file n) :
    (skip b st').here = (skip b st).here.down file n := by
  obtain ⟨hfile, hline, hcolumn⟩ : st'.file = file ∧ st'.line = st.line + n ∧
      st'.column = st.column := by simpa [here, Site.down] using h
  unfold skip
  split
  · simp only [here, Site.down, hfile, hline, Site.mk.injEq, true_and, and_true]
    omega
  · simp only [here, Site.down, hfile, hline, hcolumn]

theorem splitSymbols_down (file' : String) (line column : Nat) (cs : List Char) :
    splitSymbols file (line + n) column cs =
      ((splitSymbols file' line column cs).1.map (Token.move (Site.down file n)),
        (splitSymbols file' line column cs).2) := by
  fun_induction splitSymbols file' line column cs with
  | case1 column => rfl
  | case2 column c k hk => simp [splitSymbols, hk, Token.move, Site.down]
  | case3 column c hk => simp [splitSymbols, hk]
  | case4 column c d rest hc => simp [splitSymbols, hc]
  | case5 column c d rest hc k hk ts e he ih =>
    rw [he] at ih
    simp [splitSymbols, hc, hk, ih, Token.move, Site.down]
  | case6 column c d rest hc hp k hk ts e he ih =>
    rw [he] at ih
    simp [splitSymbols, hc, hp, hk, ih, Token.move, Site.down]
  | case7 column c d rest hc hp hk => simp [splitSymbols, hc, hp, hk]

theorem scanNumber_down (start : Site) (text : List UInt8) :
    scanNumber (start.down file n) text = (scanNumber start text).move (Site.down file n) := by
  unfold scanNumber
  simp only
  split <;> rfl

/-- A comment ends where it did. -/
theorem Follows.skipLine (h : Follows file n ext st st')
    (hext : ∀ b ∈ ext.head?, b = Run.newline) :
    ∃ c c', st.cursor.skipLine = (.ok (), c) ∧ st'.cursor.skipLine = (.ok (), c') ∧
      Follows file n ext { st with cursor := c } { st' with cursor := c' } := by
  obtain ⟨c, hc, hsound, hrest⟩ := h.sound.skipLine
  obtain ⟨c', hc', hsound', hrest'⟩ := h.sound'.skipLine
  refine ⟨c, c', hc, hc', hsound, hsound', ?_, h.here⟩
  rw [h.rest, Run.dropWhile_append_of_newline hext (by simp)] at hrest'
  rw [hrest', hrest]

theorem scanSymbols_down (h : Follows file n ext st st')
    (hext : ∀ b ∈ ext.head?, b = Run.newline) (start : Site) (text : List UInt8) :
    ∃ next', scanSymbols (start.down file n) text st' =
        ((scanSymbols start text st).1.move (Site.down file n), next') ∧
      Follows file n ext (scanSymbols start text st).2 next' := by
  have hsplit : splitSymbols file (start.line + n) start.column (Text.decodeLossy text) = _ :=
    splitSymbols_down start.file start.line start.column (Text.decodeLossy text)
  unfold scanSymbols
  simp only [Site.down, hsplit]
  split
  · exact ⟨_, rfl, h⟩
  · obtain ⟨c, c', hc, hc', hnext⟩ := h.skipLine hext
    rw [hc, hc']
    exact ⟨_, rfl, hnext⟩
  · exact ⟨_, rfl, h⟩

/-- A run that is followed by a newline and more reads as it does alone. -/
theorem read_down (hext : ∀ b ∈ ext.head?, b = Run.newline) (h : st'.here = st.here.down file n)
    (b : UInt8) (more : List UInt8) :
    ∃ next', read b (more ++ ext) st' = ((read b more st).1.move (Site.down file n), next') ∧
      Follows file n ext (read b more st).2 next' := by
  have hlength := Run.length_append_of_newline hext b more
  have htake : (b :: (more ++ ext)).take (Run.length (b :: (more ++ ext))) =
      (b :: more).take (Run.length (b :: more)) := by
    rw [← List.cons_append, hlength, List.take_append_of_le_length (Run.length_le b more)]
  have hdrop : (b :: (more ++ ext)).drop (Run.length (b :: (more ++ ext))) =
      (b :: more).drop (Run.length (b :: more)) ++ ext := by
    rw [← List.cons_append, hlength, List.drop_append_of_le_length (Run.length_le b more)]
  unfold read
  rw [htake, hdrop, h]
  generalize (b :: more).take (Run.length (b :: more)) = text
  generalize (b :: more).drop (Run.length (b :: more)) = after
  have hnext : Follows file n ext
      ⟨⟨after, none, after.isEmpty, .none⟩, st.file, st.line, st.column + text.length⟩
      ⟨⟨after ++ ext, none, (after ++ ext).isEmpty, .none⟩, st'.file, st'.line,
        st'.column + text.length⟩ := by
    refine ⟨⟨rfl, rfl, List.isEmpty_iff.mp⟩, ⟨rfl, rfl, List.isEmpty_iff.mp⟩, rfl, ?_⟩
    obtain ⟨hfile, hline, hcolumn⟩ : st'.file = file ∧ st'.line = st.line + n ∧
        st'.column = st.column := by simpa [here, Site.down] using h
    simp only [here, Site.down, hfile, hline, hcolumn]
  cases Run.classify b with
  | word => exact ⟨_, rfl, hnext⟩
  | number => exact ⟨_, Prod.ext (scanNumber_down st.here text) rfl, hnext⟩
  | symbol => exact scanSymbols_down hnext hext st.here text

section
variable (hsound : st.cursor.Sound) (hsound' : st'.cursor.Sound)
  {blanks blanks' more : List UInt8} {b : UInt8} (hahead : st.Ahead blanks b more)
  (hahead' : st'.Ahead blanks' b (more ++ ext)) (hext : ∀ b ∈ ext.head?, b = Run.newline)
  (hhere : (skip (.of blanks') st').here = (skip (.of blanks) st).here.down file n)
include hsound hsound' hahead hahead' hext hhere

/-- Two streams in front of one run read it alike. -/
theorem scan_of_ahead :
    (∀ ts next, st.scan = (.tokens ts, next) →
      ∃ next', st'.scan = (.tokens (ts.map (Token.move (Site.down file n))), next') ∧
        Follows file n ext next next') ∧
    ∀ e ts next, st.scan = (.failed e ts, next) →
      ∃ e' ts' next', st'.scan = (.failed e' ts', next') := by
  have hlength : Run.length (b :: (more ++ ext)) = Run.length (b :: more) :=
    Run.length_append_of_newline hext b more
  by_cases hshort : Run.length (b :: more) ≤ runLimit
  · obtain ⟨next', hread, hnext⟩ := read_down hext hhere b more
    rw [scan_of_run hsound hahead hshort, scan_of_run hsound' hahead' (hlength ▸ hshort), hread]
    constructor
    · intro ts next hs
      rw [hs] at hnext ⊢
      exact ⟨next', rfl, hnext⟩
    · intro e ts next hs
      rw [hs]
      exact ⟨_, _, next', rfl⟩
  · have hlong : runLimit < Run.length (b :: more) := Nat.lt_of_not_le hshort
    obtain ⟨_, hscan⟩ := scan_of_long hsound hahead hlong
    obtain ⟨next', hscan'⟩ := scan_of_long hsound' hahead' (hlength ▸ hlong)
    rw [hscan, hscan']
    constructor
    · intro ts next hs
      cases hs
    · intro e ts next hs
      exact ⟨_, _, next', rfl⟩

end

/-- A stream that cannot go on has a run in front of it. -/
theorem ahead_of_failed (hsound : st.cursor.Sound) {e : LexError} {ts : List Token} {next : Stream}
    (hs : st.scan = (.failed e ts, next)) : ∃ blanks b more, st.Ahead blanks b more := by
  rcases scan_cases hsound with ⟨-, _, hscan⟩ | ⟨blanks, b, more, hahead, -⟩
  · cases hs.symm.trans hscan
  · exact ⟨blanks, b, more, hahead⟩

theorem Follows.ahead (h : Follows file n ext st st') {blanks more : List UInt8} {b : UInt8}
    (hahead : st.Ahead blanks b more) : st'.Ahead blanks b (more ++ ext) :=
  ⟨by simp [h.rest, hahead.rest], hahead.blanks, hahead.first⟩

/-- One run further. -/
theorem Follows.scan (h : Follows file n ext st st') (hext : ∀ b ∈ ext.head?, b = Run.newline)
    {ts : List Token} {next : Stream} (hs : st.scan = (.tokens ts, next)) :
    ∃ next', st'.scan = (.tokens (ts.map (Token.move (Site.down file n))), next') ∧
      Follows file n ext next next' := by
  obtain ⟨blanks, b, more, hahead, -⟩ := ahead_of_tokens h.sound hs
  obtain ⟨htokens, -⟩ := scan_of_ahead h.sound h.sound' hahead (h.ahead hahead) hext
    (skip_down (.of blanks) h.here)
  exact htokens ts next hs

theorem Follows.failed (h : Follows file n ext st st') (hext : ∀ b ∈ ext.head?, b = Run.newline)
    {e : LexError} {ts : List Token} {next : Stream} (hs : st.scan = (.failed e ts, next)) :
    ∃ e' ts' next', st'.scan = (.failed e' ts', next') := by
  obtain ⟨blanks, b, more, hahead⟩ := ahead_of_failed h.sound hs
  obtain ⟨-, hfailed⟩ := scan_of_ahead h.sound h.sound' hahead (h.ahead hahead) hext
    (skip_down (.of blanks) h.here)
  exact hfailed e ts next hs

theorem Follows.finished (h : Follows file n [] st st') {eof : Token} {next : Stream}
    (hs : st.scan = (.finished eof, next)) :
    ∃ next', st'.scan = (.finished (eof.move (Site.down file n)), next') := by
  obtain ⟨hblank, rfl⟩ := blank_of_finished h.sound hs
  have hrest : st'.cursor.rest = st.cursor.rest := by simp [h.rest]
  obtain ⟨next', hscan⟩ := scan_of_blank h.sound' (hrest ▸ hblank)
  refine ⟨next', ?_⟩
  rw [hscan, hrest, skip_down _ h.here]
  rfl

end Stream

/-- Of blanks with a newline among them, those in front of it only count lines. -/
theorem Blank.of_newline (front blanks : List UInt8) :
    of (front ++ Run.newline :: blanks) =
      ⟨front.count Run.newline + 1 + (of blanks).newlines, (of blanks).indent⟩ := by
  have hhead : ∀ b ∈ (Run.newline :: front.reverse).head?, b = Run.newline := by simp
  have hindent := Run.takeWhile_append_of_newline hhead (p := (· != Run.newline)) (by simp)
    blanks.reverse
  simp only [of, List.reverse_append, List.reverse_cons, List.append_assoc, List.singleton_append,
    hindent, List.count_append, List.count_cons_self, Blank.mk.injEq, and_true]
  omega

namespace Stream

variable {file file' : String} {n : Nat} {st : Stream} {blanks s : List UInt8}

/-- Blanks with a newline in front of others move a stream to where it would be if it started with
the others, further down. -/
theorem skip_newline (hfile : st.file = file) (hline : st.line + blanks.count Run.newline = n)
    (others : List UInt8) :
    (skip (.of (blanks ++ Run.newline :: others)) st).here =
      (skip (.of others) (start file' (.ofBytes s))).here.down file n := by
  have hstart : (skip (.of others) (start file' (.ofBytes s))).here = .behind file' ([] ++ others) :=
    skip_blanks rfl rfl (.inl rfl)
  rw [hstart, Blank.of_newline, skip, if_pos (by dsimp only; omega)]
  simp only [here, Site.down, Site.behind, Blank.of, hfile, List.nil_append, Site.mk.injEq, true_and,
    and_true]
  omega

section
variable (hsound : st.cursor.Sound) (hrest : st.cursor.rest = blanks ++ Run.newline :: s)
  (hblanks : ∀ b ∈ blanks, Run.isBlank b = true)
include hrest hblanks

theorem ahead_newline {others more : List UInt8} {b : UInt8}
    (h : (start file' (.ofBytes s)).Ahead others b more) :
    st.Ahead (blanks ++ Run.newline :: others) b (more ++ []) := by
  have hs : s = others ++ b :: more := h.rest
  refine ⟨by simp [hrest, hs], ?_, h.first⟩
  exact List.forall_mem_append.mpr
    ⟨hblanks, List.forall_mem_cons.mpr ⟨Run.isBlank_newline, h.blanks⟩⟩

variable (hfile : st.file = file) (hline : st.line + blanks.count Run.newline = n)
include hsound hfile hline

/-- A stream in front of blanks and a newline goes on as one that starts behind them. -/
theorem scan_newline {ts : List Token} {next : Stream}
    (hs : (start file' (.ofBytes s)).scan = (.tokens ts, next)) :
    ∃ next', st.scan = (.tokens (ts.map (Token.move (Site.down file n))), next') ∧
      Follows file n [] next next' := by
  obtain ⟨others, b, more, hothers, -⟩ := ahead_of_tokens (sound_start file' s) hs
  obtain ⟨htokens, -⟩ := scan_of_ahead (sound_start file' s) hsound hothers
    (ahead_newline hrest hblanks hothers) (by simp) (skip_newline hfile hline others)
  exact htokens ts next hs

theorem failed_newline {e : LexError} {ts : List Token} {next : Stream}
    (hs : (start file' (.ofBytes s)).scan = (.failed e ts, next)) :
    ∃ e' ts' next', st.scan = (.failed e' ts', next') := by
  obtain ⟨others, b, more, hothers⟩ := ahead_of_failed (sound_start file' s) hs
  obtain ⟨-, hfailed⟩ := scan_of_ahead (sound_start file' s) hsound hothers
    (ahead_newline hrest hblanks hothers) (by simp) (skip_newline hfile hline others)
  exact hfailed e ts next hs

theorem finished_newline {eof : Token} {next : Stream}
    (hs : (start file' (.ofBytes s)).scan = (.finished eof, next)) :
    ∃ next', st.scan = (.finished (eof.move (Site.down file n)), next') := by
  obtain ⟨hothers, rfl⟩ := blank_of_finished (sound_start file' s) hs
  have hall : ∀ b ∈ st.cursor.rest, Run.isBlank b = true := by
    rw [hrest]
    exact List.forall_mem_append.mpr
      ⟨hblanks, List.forall_mem_cons.mpr ⟨Run.isBlank_newline, hothers⟩⟩
  obtain ⟨next', hscan⟩ := scan_of_blank hsound hall
  refine ⟨next', ?_⟩
  rw [hscan, hrest, skip_newline hfile hline s]
  rfl

end

/-- The tokens up to the end, unless an error comes before it. -/
def accepted (budget : Budget) (pull : Nat) (st : Stream) : Option (List Token) :=
  ((st.items (fun _ => budget) pull).mapM id).toOption

section
variable {budget : Budget} {pull : Nat} {next : Stream}

theorem accepted_of_tokens {ts : List Token} (hb : budget.check = none)
    (hs : st.scan = (.tokens ts, next)) :
    st.accepted budget pull = (next.accepted budget (pull + ts.length)).map (ts ++ ·) := by
  rw [accepted, accepted, items_of_tokens hb hs, mapM_id_append]
  cases (next.items (fun _ => budget) (pull + ts.length)).mapM id <;> rfl

theorem accepted_of_finished {eof : Token} (hb : budget.check = none)
    (hs : st.scan = (.finished eof, next)) : st.accepted budget pull = some [eof] := by
  rw [accepted, items_of_finished hb hs]
  rfl

theorem accepted_of_failed {e : LexError} {ts : List Token} (hb : budget.check = none)
    (hs : st.scan = (.failed e ts, next)) : st.accepted budget pull = none := by
  rw [accepted, items_of_failed hb hs]
  rfl

theorem accepted_of_exhausted {e : Exhausted} (hb : budget.check = some e) :
    st.accepted budget pull = none := by
  rw [accepted, items_of_exhausted hb]
  rfl

theorem ne_nil_of_accepted {ts : List Token} (h : st.accepted budget pull = some ts) :
    ts ≠ [] := by
  unfold accepted at h
  fun_induction Stream.items (fun _ => budget) pull st generalizing ts with
  | case1 pull st e hb => cases h
  | case2 pull st hb ts₀ next hscan ih =>
    rw [mapM_id_append] at h
    obtain ⟨rest, hrest, rfl⟩ := map_eq_ok.mp (toOption_eq_some.mp h)
    simp [ih (toOption_eq_some.mpr hrest)]
  | case3 pull st hb eof next hscan =>
    cases h
    simp
  | case4 pull st hb e ts₀ next hscan => cases h

end

variable {budget : Budget}

/-- A stream that follows another is accepted with the same tokens, further down. -/
theorem Follows.accepted {st' : Stream} (h : Follows file n [] st st') (pull pull' : Nat) :
    st'.accepted budget pull' =
      (st.accepted budget pull).map (List.map (Token.move (Site.down file n))) := by
  have hnil : ∀ b ∈ ([] : List UInt8).head?, b = Run.newline := by simp
  fun_induction Stream.items (fun _ => budget) pull st generalizing st' pull' with
  | case1 pull st e hb => simp only [accepted_of_exhausted hb, Option.map_none]
  | case2 pull st hb ts next hscan ih =>
    obtain ⟨next', hscan', hnext⟩ := h.scan hnil hscan
    rw [accepted_of_tokens hb hscan', accepted_of_tokens hb hscan, ih hnext]
    simp [Function.comp_def]
  | case3 pull st hb eof next hscan =>
    obtain ⟨next', hscan'⟩ := h.finished hscan
    rw [accepted_of_finished hb hscan', accepted_of_finished hb hscan]
    rfl
  | case4 pull st hb e ts next hscan =>
    obtain ⟨e', ts', next', hscan'⟩ := h.failed hnil hscan
    rw [accepted_of_failed hb hscan', accepted_of_failed hb hscan, Option.map_none]

/-- Behind a newline come the tokens of a stream that starts there, further down. -/
theorem accepted_behind (hsound : st.cursor.Sound)
    (hrest : st.cursor.rest = blanks ++ Run.newline :: s)
    (hblanks : ∀ b ∈ blanks, Run.isBlank b = true) (hfile : st.file = file)
    (hline : st.line + blanks.count Run.newline = n) (pull pull' : Nat) :
    st.accepted budget pull' = ((start file' (.ofBytes s)).accepted budget pull).map
      (List.map (Token.move (Site.down file n))) := by
  fun_cases Stream.items (fun _ => budget) pull (start file' (.ofBytes s)) with
  | case1 e hb => simp only [accepted_of_exhausted hb, Option.map_none]
  | case2 hb ts next hscan =>
    obtain ⟨next', hscan', hnext⟩ := scan_newline hsound hrest hblanks hfile hline hscan
    rw [accepted_of_tokens hb hscan', accepted_of_tokens hb hscan,
      hnext.accepted (pull + ts.length)]
    simp [Function.comp_def]
  | case3 hb eof next hscan =>
    obtain ⟨next', hscan'⟩ := finished_newline hsound hrest hblanks hfile hline hscan
    rw [accepted_of_finished hb hscan', accepted_of_finished hb hscan]
    rfl
  | case4 hb e ts next hscan =>
    obtain ⟨e', ts', next', hscan'⟩ := failed_newline hsound hrest hblanks hfile hline hscan
    rw [accepted_of_failed hb hscan', accepted_of_failed hb hscan, Option.map_none]

/-- The tokens in front of a newline stay, and those behind it are further down. An error on either
side of it is one of the whole. -/
theorem accepted_newline {file₁ file₂ : String} {s₁ s₂ : List UInt8} {st' : Stream}
    {before after : List UInt8} {us : List Token} (h : Follows file 0 (Run.newline :: s₂) st st')
    (hstands : st.Stands file₁ before after) (htiles : Tiles file₁ s₁ before us after)
    (pull pull₂ pull' : Nat) :
    st'.accepted budget pull' = (st.accepted budget pull).bind fun ts₁ =>
      ((start file₂ (.ofBytes s₂)).accepted budget pull₂).map fun ts₂ =>
        ts₁.dropLast.map (Token.move (Site.down file 0)) ++
          ts₂.map (Token.move (Site.down file (1 + s₁.count Run.newline))) := by
  have hext : ∀ b ∈ (Run.newline :: s₂).head?, b = Run.newline := by simp
  fun_induction Stream.items (fun _ => budget) pull st
    generalizing st' before after us pull' with
  | case1 pull st e hb => simp only [accepted_of_exhausted hb, Option.bind_none]
  | case2 pull st hb ts next hscan ih =>
    obtain ⟨next', hscan', hnext⟩ := h.scan hext hscan
    have hlead : Leads budget file₁ s₁ us st.scan := leads_scan hstands htiles
    rw [hscan] at hlead
    obtain ⟨before', after', hstands', htiles'⟩ := hlead
    rw [accepted_of_tokens hb hscan', accepted_of_tokens hb hscan,
      ih hnext hstands' htiles' (pull' + _)]
    cases hrest : next.accepted budget (pull + ts.length) with
    | none => rfl
    | some rest =>
      have hlast : (ts ++ rest).dropLast = ts ++ rest.dropLast :=
        List.dropLast_append_of_ne_nil (ne_nil_of_accepted hrest)
      simp only [Option.map_some, Option.bind_some, Option.map_map, hlast, List.map_append,
        List.append_assoc, Function.comp_def]
  | case3 pull st hb eof next hscan =>
    obtain ⟨hblank, -⟩ := blank_of_finished h.sound hscan
    obtain ⟨hfile, hline, -⟩ : st'.file = file ∧ st'.line = st.line + 0 ∧
        st'.column = st.column := by simpa [here, Site.down] using h.here
    have hcount : st'.line + st.cursor.rest.count Run.newline = 1 + s₁.count Run.newline := by
      rw [hline, hstands.line, hstands.rest, ← htiles.append_eq, List.count_append]
      simp only [Site.behind]
      omega
    rw [accepted_behind h.sound' h.rest hblank hfile hcount pull₂, accepted_of_finished hb hscan]
    rfl
  | case4 pull st hb e ts next hscan =>
    obtain ⟨e', ts', next', hscan'⟩ := h.failed hext hscan
    rw [accepted_of_failed hb hscan', accepted_of_failed hb hscan, Option.bind_none]

end Stream

/-- What a source joined of two by a newline is read as hangs on what each of them is read as. -/
theorem toOption_tokenize_append (budget : Budget) (file file₁ file₂ : String)
    (s₁ s₂ : List UInt8) :
    (tokenize budget file (.ofBytes (s₁ ++ Run.newline :: s₂))).toOption =
      (tokenize budget file₁ (.ofBytes s₁)).toOption.bind fun ts₁ =>
        (tokenize budget file₂ (.ofBytes s₂)).toOption.map fun ts₂ =>
          ts₁.dropLast.map (Token.move (Site.down file 0)) ++
            ts₂.map (Token.move (Site.down file (1 + s₁.count Run.newline))) := by
  have hfollows : Stream.Follows file 0 (Run.newline :: s₂) (.start file₁ (.ofBytes s₁))
      (.start file (.ofBytes (s₁ ++ Run.newline :: s₂))) :=
    ⟨Stream.sound_start _ _, Stream.sound_start _ _, rfl, rfl⟩
  exact Stream.accepted_newline hfollows (Stream.stands_start file₁ s₁) .start 0 0 0

/-- Two sources joined by a newline have the tokens of the first up to its end, and behind them
those of the second, further down. -/
theorem tokenize_append {budget : Budget} {file₁ file₂ : String} {s₁ s₂ : List UInt8}
    {ts₁ ts₂ : List Token} (h₁ : tokenize budget file₁ (.ofBytes s₁) = .ok ts₁)
    (h₂ : tokenize budget file₂ (.ofBytes s₂) = .ok ts₂) (file : String) :
    ∃ (us : List Token) (eof : Token), ts₁ = us ++ [eof] ∧ eof.kind = .eof ∧
      (∀ t ∈ us, t.kind ≠ .eof) ∧
      tokenize budget file (.ofBytes (s₁ ++ Run.newline :: s₂)) =
        .ok (us.map (Token.move (Site.down file 0)) ++
          ts₂.map (Token.move (Site.down file (1 + s₁.count Run.newline)))) := by
  have hjoined := toOption_tokenize_append budget file file₁ file₂ s₁ s₂
  have htiles := Stream.tiles_items budget 0 (Stream.stands_start file₁ s₁) .start
  rw [h₁, h₂] at hjoined
  rw [tokenize] at h₁
  rw [h₁] at htiles
  obtain ⟨us, eof, rfl, heof, htiles⟩ := htiles
  refine ⟨us, eof, rfl, heof, htiles.kind_ne_eof, ?_⟩
  rw [toOption_eq_some.mp hjoined, List.dropLast_concat]

theorem Token.move_down_zero {file : String} {t : Token} (h : t.site.file = file) :
    t.move (Site.down file 0) = t := by
  subst h
  rfl

/-- A newline cuts a source in two. The whole is accepted exactly when both parts are, and then it
has the tokens of the first part up to its end and behind them those of the second, so many lines
further down as the first part and the newline take. -/
theorem newline_separates (budget : Budget) (file : String) (s₁ s₂ : List UInt8) :
    (∀ ts₁ ts₂, tokenize budget file (.ofBytes s₁) = .ok ts₁ →
      tokenize budget file (.ofBytes s₂) = .ok ts₂ →
      ∃ us eof, ts₁ = us ++ [eof] ∧ eof.kind = .eof ∧ (∀ t ∈ us, t.kind ≠ .eof) ∧
        tokenize budget file (.ofBytes (s₁ ++ Run.newline :: s₂)) = .ok (us ++ ts₂.map fun t =>
          ⟨t.kind, t.lexeme,
            ⟨t.site.file, t.site.line + (1 + s₁.count Run.newline), t.site.column⟩⟩)) ∧
      ∀ ts, tokenize budget file (.ofBytes (s₁ ++ Run.newline :: s₂)) = .ok ts →
        ∃ ts₁ ts₂, tokenize budget file (.ofBytes s₁) = .ok ts₁ ∧
          tokenize budget file (.ofBytes s₂) = .ok ts₂ := by
  constructor
  · intro ts₁ ts₂ h₁ h₂
    obtain ⟨us, eof, rfl, heof, hus, hjoined⟩ := tokenize_append h₁ h₂ file
    have hfront : ∀ t ∈ us, t.move (Site.down file 0) = id t := fun t ht =>
      Token.move_down_zero ((tokenize_sites h₁).1 t (List.mem_append_left _ ht))
    have hback : ∀ t ∈ ts₂, t.move (Site.down file (1 + s₁.count Run.newline)) = ⟨t.kind, t.lexeme,
        ⟨t.site.file, t.site.line + (1 + s₁.count Run.newline), t.site.column⟩⟩ := by
      intro t ht
      rw [(tokenize_sites h₂).1 t ht]
      rfl
    refine ⟨us, eof, rfl, heof, hus, ?_⟩
    rw [hjoined, List.map_congr_left hfront, List.map_id, List.map_congr_left hback]
  · intro ts h
    have hjoined := toOption_tokenize_append budget file file file s₁ s₂
    rw [toOption_eq_some.mpr h] at hjoined
    obtain ⟨ts₁, h₁, hjoined⟩ := Option.bind_eq_some_iff.mp hjoined.symm
    obtain ⟨ts₂, h₂, -⟩ := Option.map_eq_some_iff.mp hjoined
    exact ⟨ts₁, ts₂, toOption_eq_some.mp h₁, toOption_eq_some.mp h₂⟩

/-- The first part ends inside a comment behind `<`, and the second starts with `=`. -/
theorem newline_separates_less_equal :
    let s₁ := "x\n< // y".toUTF8.toList
    let s₂ := "= 7".toUTF8.toList
    tokenize .unlimited "a" (.ofBytes s₁) = .ok [⟨.ident, "x", ⟨"a", 1, 1⟩⟩,
        ⟨.lt, "<", ⟨"a", 2, 1⟩⟩, ⟨.eof, "", ⟨"a", 2, 5⟩⟩] ∧
      tokenize .unlimited "a" (.ofBytes s₂) = .ok [⟨.assign, "=", ⟨"a", 1, 1⟩⟩,
        ⟨.number, "7", ⟨"a", 1, 3⟩⟩, ⟨.eof, "", ⟨"a", 1, 4⟩⟩] ∧
      tokenize .unlimited "a" (.ofBytes (s₁ ++ Run.newline :: s₂)) =
        .ok [⟨.ident, "x", ⟨"a", 1, 1⟩⟩, ⟨.lt, "<", ⟨"a", 2, 1⟩⟩, ⟨.assign, "=", ⟨"a", 3, 1⟩⟩,
          ⟨.number, "7", ⟨"a", 3, 3⟩⟩, ⟨.eof, "", ⟨"a", 3, 4⟩⟩] ∧
      ∃ ts₁ ts₂, tokenize .unlimited "a" (.ofBytes s₁) = .ok ts₁ ∧
        tokenize .unlimited "a" (.ofBytes s₂) = .ok ts₂ := by
  intro s₁ s₂
  have h₁ : tokenize .unlimited "a" (.ofBytes s₁) = .ok [⟨.ident, "x", ⟨"a", 1, 1⟩⟩,
      ⟨.lt, "<", ⟨"a", 2, 1⟩⟩, ⟨.eof, "", ⟨"a", 2, 5⟩⟩] := by decide +kernel
  have h₂ : tokenize .unlimited "a" (.ofBytes s₂) = .ok [⟨.assign, "=", ⟨"a", 1, 1⟩⟩,
      ⟨.number, "7", ⟨"a", 1, 3⟩⟩, ⟨.eof, "", ⟨"a", 1, 4⟩⟩] := by decide +kernel
  have hcount : s₁.count Run.newline = 1 := by decide +kernel
  obtain ⟨hjoin, hsplit⟩ := newline_separates .unlimited "a" s₁ s₂
  obtain ⟨us, eof, hts, -, -, hjoined⟩ := hjoin _ _ h₁ h₂
  obtain rfl := List.dropLast_concat.symm.trans (congrArg List.dropLast hts.symm)
  rw [hcount] at hjoined
  exact ⟨h₁, h₂, hjoined, hsplit _ hjoined⟩

end ThreeAddress
