import ThreeAddress.Proofs.Disturbance
import ThreeAddress.Proofs.RawRuns

namespace ThreeAddress

/-- A run of no excessive length is read, or the source breaks off behind it. -/
theorem Cursor.next_run_or_break {c : Cursor} (h : c.atEnd = false) {b : UInt8} {more : List UInt8}
    (hrest : c.rest.dropWhile Run.isBlank = b :: more)
    (hshort : Run.length (b :: more) ≤ runLimit) :
    (((b :: more).drop (Run.length (b :: more)) = [] → c.broken = none) ∧
      c.next = (.ok (some ⟨Run.classify b, (b :: more).take (Run.length (b :: more)),
          .of (c.rest.takeWhile Run.isBlank)⟩),
        ⟨(b :: more).drop (Run.length (b :: more)), c.broken,
          ((b :: more).drop (Run.length (b :: more))).isEmpty, c.tail⟩)) ∨
    ∃ reason c', (b :: more).drop (Run.length (b :: more)) = [] ∧ c.broken = some reason ∧
      c.next = (.error (.unreadable reason), c') := by
  by_cases hnil : (b :: more).drop (Run.length (b :: more)) = []
  · cases hbroken : c.broken with
    | none => exact .inl ⟨fun _ => rfl, next_of_short hbroken h hrest hshort⟩
    | some reason =>
      refine .inr ⟨reason, { c with rest := [] }, hnil, rfl, ?_⟩
      simp [next, h, Run.skipBlank_eq, hrest, Nat.not_lt.mpr hshort, hnil, hbroken]
  · refine .inl ⟨fun heq => absurd heq hnil, ?_⟩
    rw [next_of_more h hrest hshort hnil, List.isEmpty_eq_false_iff.mpr hnil]

namespace Stream

/-- A stream stands at the end of a run: that is its place, and it reads on behind the line of the
comment that the run opens. -/
structure AtRunEnd (st : Stream) (broken : Option String) (file : String)
    (before last after : List UInt8) : Prop where
  here : st.here = .behind file before
  rest : st.cursor.rest = Run.ahead last after
  ended : st.cursor.atEnd = true → st.cursor.rest = [] ∧ broken = none
  source : st.cursor.broken = broken
  fresh : st.cursor.tail = .none

variable {st next : Stream} {broken : Option String} {file : String} {cls : RunClass}
  {s before last gap text after behind blanks : List UInt8} {ts : List Token}

theorem atRunEnd_start (file : String) (s : Source) :
    (start file s).AtRunEnd s.broken file [] [] s.bytes where
  here := rfl
  rest := rfl
  ended := nofun
  source := rfl
  fresh := rfl

/-- Over a gap the place is counted on to its end, unless a comment ends the source. -/
theorem skip_gap (hhere : st.here = .behind file before) (ht : Run.newline ∉ text)
    (hn : text = [] ∨ Run.newline ∈ blanks) :
    (skip (.of blanks) st).here = .behind file (before ++ (text ++ blanks)) := by
  have hbehind := Site.behind_append file before ht
  have hline : st.line = (Site.behind file (before ++ text)).line := by
    rw [hbehind, ← hhere]
    rfl
  rw [← List.append_assoc]
  refine skip_blanks (congrArg Site.file hhere) hline (hn.imp_left ?_)
  rintro rfl
  rw [List.append_nil, ← hhere]
  rfl

/-- What a run that is read is turned into. -/
def readRun (run : Run) (st : Stream) : Scanned × Stream :=
  let next := { st with column := st.column + run.bytes.length }
  match run.cls with
  | .word => (scanWord st.here run.bytes, next)
  | .number => (scanNumber st.here run.bytes, next)
  | .symbol => scanSymbols st.here run.bytes next

theorem scan_of_next {run : Run} {c : Cursor} (h : st.cursor.next = (.ok (some run), c)) :
    st.scan = readRun run (skip run.before { st with cursor := c }) := by
  rw [scan, h]
  rfl

/-- What a run has been turned into: if tokens, the stream stands at the end of the run. No run that
can be turned into tokens is lost, unless the source breaks off behind it. -/
def Turned (broken : Option String) (file : String) (front : List UInt8) (cls : RunClass)
    (text after : List UInt8) : Scanned × Stream → Prop
  | (.tokens _, next) => Run.Legal cls text ∧ next.AtRunEnd broken file (front ++ text) text after
  | (.finished _, _) => False
  | (.failed e _, _) => e.fault ≠ .tooLong ∧
      (Run.Legal cls text → broken ≠ none ∧ Run.ahead text after = [])

/-- A stream behind the bytes of a run that is not turned into tokens yet. -/
structure AtRun (st : Stream) (broken : Option String) (file : String)
    (before after : List UInt8) : Prop where
  here : st.here = .behind file before
  rest : st.cursor.rest = after
  ended : st.cursor.atEnd = true → after = [] ∧ broken = none
  source : st.cursor.broken = broken
  fresh : st.cursor.tail = .none

theorem AtRun.atRunEnd (h : st.AtRun broken file before after)
    (hl : ¬[Run.slash, Run.slash] <:+ text) : st.AtRunEnd broken file before text after where
  here := h.here
  rest := by rw [h.rest, Run.ahead, if_neg hl]
  ended hend := by
    rw [h.rest]
    exact h.ended hend
  source := h.source
  fresh := h.fresh

/-- A comment takes the rest of its line, if the source does not break off there. -/
theorem AtRun.turned_comment (h : st.AtRun broken file before after)
    (hl : [Run.slash, Run.slash] <:+ text) :
    (∃ c, st.cursor.skipLine = (.ok (), c) ∧
      AtRunEnd { st with cursor := c } broken file before text after) ∨
    ∃ reason c, st.cursor.skipLine = (.error (.unreadable reason), c) ∧ broken ≠ none ∧
      Run.ahead text after = [] := by
  have hahead : st.cursor.rest.dropWhile (· != Run.newline) = Run.ahead text after := by
    rw [h.rest, Run.ahead, if_pos hl]
  by_cases hnil : Run.ahead text after = []
  · cases broken with
    | none =>
      refine .inl ⟨{ st.cursor with rest := [], atEnd := true }, ?_, h.here, hnil.symm, ?_,
        h.source, h.fresh⟩
      · simp [Cursor.skipLine, hahead, hnil, h.source]
      · exact fun _ => ⟨rfl, rfl⟩
    | some reason =>
      refine .inr ⟨reason, { st.cursor with rest := [] }, ?_, Option.some_ne_none reason, hnil⟩
      simp [Cursor.skipLine, hahead, hnil, h.source]
  · refine .inl ⟨{ st.cursor with rest := Run.ahead text after }, ?_, h.here, rfl, fun hend => ?_,
      h.source, h.fresh⟩
    · simp [Cursor.skipLine, hahead, hnil]
    · obtain ⟨rfl, -⟩ := h.ended hend
      rw [Run.ahead, if_pos hl] at hnil
      exact absurd rfl hnil

theorem turned_symbols (hraw : Run.Raw .symbol text after)
    (h : st.AtRun broken file (before ++ text) after) (start : Site) :
    Turned broken file before .symbol text after (scanSymbols start text st) := by
  have hends := Run.ends_splitSymbols start.file start.line start.column rfl hraw.slashes
  unfold scanSymbols
  simp only
  generalize splitSymbols _ _ _ _ = split at hends ⊢
  obtain ⟨ts, ending⟩ := split
  cases ending with
  | complete => exact ⟨hends.1, h.atRunEnd hends.2⟩
  | comment =>
    rcases h.turned_comment hends.2 with ⟨c, hskip, hend⟩ | ⟨reason, c, hskip, hbroken⟩
    · simp only [hskip]
      exact ⟨hends.1, hend⟩
    · simp only [hskip]
      refine ⟨fun hlong => ?_, fun _ => hbroken⟩
      cases hlong
  | illegal c column =>
    refine ⟨fun hlong => ?_, fun hlegal => absurd hlegal hends⟩
    cases hlong

/-- A run that is read is turned into tokens if it can be. -/
theorem turned_readRun {b : Blank} (hraw : Run.Raw cls text after)
    (h : st.AtRun broken file before after) :
    Turned broken file before cls text after (readRun ⟨cls, text, b⟩ st) := by
  have hnext : AtRun { st with column := st.column + text.length } broken file (before ++ text)
      after := by
    refine ⟨?_, h.rest, h.ended, h.source, h.fresh⟩
    rw [Site.behind_append file before hraw.is.newline_not_mem, ← h.here]
    rfl
  have hslash (hcls : cls ≠ .symbol) : ¬[Run.slash, Run.slash] <:+ text := fun hsuffix =>
    hraw.is.slash_not_mem hcls (hsuffix.subset List.mem_cons_self)
  cases cls with
  | word => exact ⟨trivial, hnext.atRunEnd (hslash (by decide))⟩
  | number =>
    unfold readRun scanNumber
    simp only
    split
    · next hcheck => exact ⟨hcheck, hnext.atRunEnd (hslash (by decide))⟩
    · next fault hcheck =>
      refine ⟨fun hlong => ?_, fun hlegal => ?_⟩
      · cases hlong
      · cases hcheck.symm.trans hlegal
  | symbol => exact turned_symbols hraw hnext st.here

section
variable (h : st.AtRunEnd broken file before last (gap ++ (text ++ after)))
  (hg : Run.Gap last gap (text ++ after)) (hr : Run.Raw cls text after)
include h hg hr

/-- A run behind a gap is the next one to be read, and it starts behind the gap. -/
theorem AtRunEnd.exists_ahead :
    st.cursor.atEnd = false ∧ ∃ blanks b more, st.Ahead blanks b more ∧ text ++ after = b :: more ∧
      Run.classify b = cls ∧ Run.length (b :: more) = text.length ∧
      (skip (.of blanks) st).here = .behind file (before ++ gap) := by
  obtain ⟨comment, blanks, rfl, ht, hblanks, hline, hahead⟩ := hg.split
  obtain ⟨b, more, hsplit, hb, hclass, hlength⟩ := hr.length_eq
  rw [hsplit] at hline hahead
  have hrest : st.cursor.rest = blanks ++ b :: more := by rw [h.rest, hsplit, hahead]
  have hn : comment = [] ∨ Run.newline ∈ blanks := by
    refine hline.imp_right fun ⟨_, hnewline⟩ => ?_
    cases blanks with
    | nil =>
      rw [hnewline b rfl] at hb
      cases hb
    | cons x blanks =>
      rw [hnewline x rfl]
      exact List.mem_cons_self
  refine ⟨?_, blanks, b, more, ⟨hrest, hblanks, hb⟩, hsplit, hclass, hlength, skip_gap h.here ht hn⟩
  rw [Bool.eq_false_iff]
  intro hend
  obtain ⟨hnil, -⟩ := h.ended hend
  simp [hrest] at hnil

/-- A run that is too long is reported where the run in front of it ends. -/
theorem scan_of_overlong (hlong : runLimit < text.length) :
    ∃ next, st.scan = (.failed ⟨.tooLong, .behind file before⟩ [], next) := by
  obtain ⟨hend, blanks, b, more, hahead, -, -, hlength, -⟩ := h.exists_ahead hg hr
  obtain ⟨c, hnext⟩ := Cursor.next_of_long hend hahead.dropWhile (hlength ▸ hlong)
  refine ⟨{ st with cursor := c }, ?_⟩
  rw [scan, hnext, ← h.here]
  rfl

/-- Every other run is turned into tokens if it can be. -/
theorem turned_scan (hshort : text.length ≤ runLimit) :
    Turned broken file (before ++ gap) cls text after st.scan := by
  obtain ⟨hend, blanks, b, more, hahead, hsplit, rfl, hlength, hhere⟩ := h.exists_ahead hg hr
  have htext : (b :: more).take (Run.length (b :: more)) = text := by
    rw [hlength, ← hsplit, List.take_left]
  have hafter : (b :: more).drop (Run.length (b :: more)) = after := by
    rw [hlength, ← hsplit, List.drop_left]
  have hat (hwhole : after = [] → broken = none) :
      AtRun (skip (.of blanks) { st with cursor := ⟨after, broken, after.isEmpty, .none⟩ }) broken
        file (before ++ gap) after := by
    rw [skip_at]
    refine ⟨hhere, rfl, fun hempty => ?_, rfl, rfl⟩
    obtain rfl := List.isEmpty_iff.mp hempty
    exact ⟨rfl, hwhole rfl⟩
  rcases Cursor.next_run_or_break hend hahead.dropWhile (hlength ▸ hshort) with
    ⟨hwhole, hnext⟩ | ⟨reason, c, hnil, hbroken, hnext⟩
  · rw [htext, hafter, hahead.takeWhile, h.source, h.fresh] at hnext
    rw [hafter, h.source] at hwhole
    rw [scan_of_next hnext]
    exact turned_readRun hr (hat hwhole)
  · rw [scan, hnext]
    rw [h.source] at hbroken
    rw [hafter] at hnil
    refine ⟨fun hlong => ?_, fun _ => ⟨by simp [hbroken], ?_⟩⟩
    · cases hlong
    · simp [Run.ahead, hnil]

end

/-- Behind the last run the end is met, if the source does not break off. -/
theorem scan_of_gap (h : st.AtRunEnd broken file before last after) (hg : Run.Gap last after []) :
    (broken = none ∧ ∃ next, st.scan =
      (.finished ⟨.eof, "", (skip (.of (Run.ahead last after)) st).here⟩, next)) ∨
    ∃ e next, st.scan = (.failed e [], next) ∧ broken ≠ none ∧ e.fault ≠ .tooLong := by
  obtain ⟨comment, blanks, rfl, -, hblanks, -, hahead⟩ := hg.split
  rw [List.append_nil, List.append_nil] at hahead
  cases hbroken : broken with
  | none =>
    have hsound : st.cursor.Sound := ⟨h.source.trans hbroken, h.fresh, fun hend => (h.ended hend).1⟩
    refine .inl ⟨rfl, ?_⟩
    rw [← h.rest]
    exact scan_of_blank hsound (by rwa [h.rest, hahead])
  | some reason =>
    have hend : st.cursor.atEnd = false := by
      rw [Bool.eq_false_iff]
      intro hend
      cases hbroken.symm.trans (h.ended hend).2
    have hdrop : st.cursor.rest.dropWhile Run.isBlank = [] := by
      rwa [h.rest, hahead, List.dropWhile_eq_nil_iff]
    refine .inr ⟨⟨.unreadable reason, st.here⟩, { st with cursor := { st.cursor with rest := [] } },
      ?_, Option.some_ne_none reason, fun hlong => by cases hlong⟩
    have hnext : st.cursor.next =
        (.error (.unreadable reason), { st.cursor with rest := [] }) := by
      simp [Cursor.next, hend, Run.skipBlank_eq, hdrop, h.source, hbroken]
    rw [scan, hnext]
    rfl

/-- One behind the other the runs of a source are read. -/
theorem items_of_passes {budget : Budget} (hb : budget.check = none) {s : Source}
    (h : Passes s.bytes before last after) (hwhole : s.broken = none ∨ Run.ahead last after ≠ []) :
    ∃ (ts : List Token) (st : Stream), st.AtRunEnd s.broken file before last after ∧
      (start file s).items (fun _ => budget) 0 =
        ts.map .ok ++ st.items (fun _ => budget) ts.length := by
  induction h with
  | start => exact ⟨[], start file s, atRunEnd_start file s, rfl⟩
  | @run before last gap text after cls h hg hr hs hl ih =>
    obtain ⟨ts, st, hst, hitems⟩ := ih (.inr (hg.ahead_ne_nil hr))
    have hturned := turned_scan hst hg hr hs
    rcases hscan : st.scan with ⟨scanned, next⟩
    rw [hscan] at hturned
    cases scanned with
    | tokens us =>
      refine ⟨ts ++ us, next, hturned.2, ?_⟩
      rw [hitems, items_of_tokens hb hscan, List.map_append, List.append_assoc, List.length_append]
    | finished eof => exact hturned.elim
    | failed e us =>
      obtain ⟨hbroken, hnil⟩ := hturned.2 hl
      exact (hwhole.elim hbroken fun hne => hne hnil).elim

/-- Reading goes on run by run until a run gives no tokens. -/
theorem exists_last_run {budget : Budget} (hb : budget.check = none) (pull : Nat)
    (hp : Passes s before last after) (h : st.AtRunEnd broken file before last after) :
    ∃ (ts : List Token) (st' : Stream) (before' last' after' : List UInt8),
      Passes s before' last' after' ∧ st'.AtRunEnd broken file before' last' after' ∧
      st.items (fun _ => budget) pull =
        ts.map .ok ++ st'.items (fun _ => budget) (pull + ts.length) ∧
      ∀ us next, st'.scan ≠ (.tokens us, next) := by
  fun_induction items (fun _ => budget) pull st generalizing before last after with
  | case1 pull st e he => cases hb.symm.trans he
  | case2 pull st he us next hscan ih =>
    rcases Run.exists_next last after with hg | ⟨gap, cls, text, after', rfl, hg, hr⟩
    · rcases scan_of_gap h hg with ⟨-, _, hscan'⟩ | ⟨_, _, hscan', -⟩
      · cases hscan.symm.trans hscan'
      · cases hscan.symm.trans hscan'
    · rcases Nat.lt_or_ge runLimit text.length with hlong | hshort
      · obtain ⟨_, hscan'⟩ := scan_of_overlong h hg hr hlong
        cases hscan.symm.trans hscan'
      · have hturned := turned_scan h hg hr hshort
        rw [hscan] at hturned
        obtain ⟨ts, st', before', last', after'', hp', hst', hitems, hlast⟩ :=
          ih (.run hp hg hr hshort hturned.1) hturned.2
        refine ⟨us ++ ts, st', before', last', after'', hp', hst', ?_, hlast⟩
        rw [hitems]
        simp [Nat.add_assoc]
  | case3 pull st he eof next hscan =>
    refine ⟨[], st, before, last, after, hp, h, ?_, ?_⟩
    · exact (items_of_finished he hscan).symm
    · intro us next' hscan'
      cases hscan.symm.trans hscan'
  | case4 pull st he e us next hscan =>
    refine ⟨[], st, before, last, after, hp, h, ?_, ?_⟩
    · exact (items_of_failed he hscan).symm
    · intro us next' hscan'
      cases hscan.symm.trans hscan'

end Stream

variable {budget : Budget} {file : String} {s : Source} {before last gap after text : List UInt8}

/-- What tokenizing gives is what is read behind the runs of the source. -/
theorem tokenize_of_passes (hb : budget.check = none) (h : Passes s.bytes before last after)
    (hwhole : s.broken = none ∨ Run.ahead last after ≠ []) :
    ∃ (ts : List Token) (st : Stream), st.AtRunEnd s.broken file before last after ∧
      tokenize budget file s = ((st.items (fun _ => budget) ts.length).mapM id).map (ts ++ ·) := by
  obtain ⟨ts, st, hst, hitems⟩ := Stream.items_of_passes hb h hwhole
  exact ⟨ts, st, hst, by rw [tokenize, hitems, mapM_id_append]⟩

theorem check_of_tokenize (h : ∀ e, tokenize budget file s ≠ .error ⟨.exhausted e, ⟨file, 1, 1⟩⟩) :
    budget.check = none := by
  cases hb : budget.check with
  | none => rfl
  | some e =>
    refine absurd ?_ (h e)
    rw [tokenize, Stream.items_of_exhausted hb]
    rfl

theorem tooLong_of_overlong (hb : budget.check = none) (h : Overlong s.bytes before gap text) :
    tokenize budget file s = .error ⟨.tooLong, .behind file before⟩ := by
  obtain ⟨last, cls, after, hp, hg, hr, hlong⟩ := h
  obtain ⟨ts, st, hst, hts⟩ := tokenize_of_passes hb hp (.inr (hg.ahead_ne_nil hr))
  obtain ⟨next, hscan⟩ := Stream.scan_of_overlong hst hg hr hlong
  rw [hts, Stream.items_of_failed hb hscan]
  rfl

/-- The end of the file behind the runs of a source that is read to its end. -/
theorem tokenize_of_gap (hb : budget.check = none) (hwhole : s.broken = none)
    (hp : Passes s.bytes before last after) (hg : Run.Gap last after []) :
    ∃ (us : List Token) (st : Stream), st.AtRunEnd s.broken file before last after ∧
      tokenize budget file s =
        .ok (us ++ [⟨.eof, "", (Stream.skip (.of (Run.ahead last after)) st).here⟩]) := by
  obtain ⟨us, st, hst, hus⟩ := tokenize_of_passes hb hp (.inl hwhole)
  rcases Stream.scan_of_gap hst hg with ⟨-, next, hscan⟩ | ⟨e, next, hscan, hbroken, -⟩
  · refine ⟨us, st, hst, ?_⟩
    rw [hus, Stream.items_of_finished hb hscan]
    rfl
  · exact absurd hwhole hbroken

/-- How tokenizing ends: behind the last run, at a run that is too long, or with another fault. -/
theorem tokenize_cases (hb : budget.check = none) (file : String) (s : Source) :
    (s.broken = none ∧
      ∃ before last after, Passes s.bytes before last after ∧ Run.Gap last after []) ∨
    (∃ before gap text, Overlong s.bytes before gap text) ∨
    ∃ e, tokenize budget file s = .error e ∧ e.fault ≠ .tooLong := by
  obtain ⟨ts, st, before, last, after, hp, hst, hitems, hlast⟩ :=
    Stream.exists_last_run hb 0 .start (Stream.atRunEnd_start file s)
  have hfail {e : LexError} {us : List Token} {next : Stream}
      (hscan : st.scan = (.failed e us, next)) : tokenize budget file s = .error e := by
    rw [tokenize, hitems, mapM_id_append, Stream.items_of_failed hb hscan]
    rfl
  rcases Run.exists_next last after with hg | ⟨gap, cls, text, after, rfl, hg, hr⟩
  · rcases Stream.scan_of_gap hst hg with ⟨hwhole, -⟩ | ⟨e, next, hscan, -, hfault⟩
    · exact .inl ⟨hwhole, before, last, after, hp, hg⟩
    · exact .inr (.inr ⟨e, hfail hscan, hfault⟩)
  · rcases Nat.lt_or_ge runLimit text.length with hlong | hshort
    · exact .inr (.inl ⟨before, gap, text, last, cls, after, hp, hg, hr, hlong⟩)
    · have hturned := Stream.turned_scan hst hg hr hshort
      rcases hscan : st.scan with ⟨scanned, next⟩
      rw [hscan] at hturned
      cases scanned with
      | tokens us => exact absurd hscan (hlast us next)
      | finished eof => exact hturned.elim
      | failed e us => exact .inr (.inr ⟨e, hfail hscan, hturned.1⟩)

theorem overlong_of_tooLong {site : Site}
    (h : tokenize budget file s = .error ⟨.tooLong, site⟩) :
    budget.check = none ∧
      ∃ before gap text, Overlong s.bytes before gap text ∧ site = .behind file before := by
  have hb : budget.check = none := check_of_tokenize fun e he => by cases h.symm.trans he
  refine ⟨hb, ?_⟩
  rcases tokenize_cases hb file s with
    ⟨hwhole, before, last, after, hp, hg⟩ | ⟨before, gap, text, hlong⟩ | ⟨e, he, hfault⟩
  · obtain ⟨us, st, -, hok⟩ := tokenize_of_gap hb hwhole hp hg
    cases h.symm.trans hok
  · cases h.symm.trans (tooLong_of_overlong hb hlong)
    exact ⟨before, gap, text, hlong, rfl⟩
  · cases h.symm.trans he
    exact absurd rfl hfault

/-- Tokenizing fails because of a run's length exactly if the first run that cannot be turned into
tokens is too long. The place of the error is the end of the run in front of it, or the start of
the source; that is where the long run starts exactly if neither blanks nor a comment stand in
between. -/
theorem overlong_reported_behind_last_run (budget : Budget) (file : String) (s : Source) :
    (∀ site, tokenize budget file s = .error ⟨.tooLong, site⟩ ↔ budget.check = none ∧
      ∃ before gap text, Overlong s.bytes before gap text ∧ site = .behind file before) ∧
    ∀ before gap text, budget.check = none → Overlong s.bytes before gap text →
      (tokenize budget file s = .error ⟨.tooLong, .behind file (before ++ gap)⟩ ↔ gap = []) := by
  refine ⟨fun site => ⟨overlong_of_tooLong, ?_⟩, fun before gap text hb h => ?_⟩
  · rintro ⟨hb, before, gap, text, h, rfl⟩
    exact tooLong_of_overlong hb h
  · rw [tooLong_of_overlong hb h]
    constructor
    · intro heq
      have hsite := congrArg LexError.site (Except.error.inj heq)
      by_contra hne
      exact (Site.before_behind file before hne).ne hsite
    · rintro rfl
      rw [List.append_nil]

/-- A letter over and over is a word. -/
theorem Run.raw_replicate {n : Nat} (hn : n ≠ 0) {after : List UInt8}
    (hstop : ∀ b ∈ after.head?, isAlnum b = false) : Raw .word (List.replicate n 0x78) after where
  is := by
    refine .word ⟨0x78, ?_, rfl⟩ ⟨fun b hb => ?_, hstop⟩
    · rw [List.head?_replicate, if_neg hn]
      rfl
    · rw [List.eq_of_mem_replicate hb]
      rfl
  nonempty := by simpa using hn
  slashes front back h := by
    have hslash : slash ∈ List.replicate n 0x78 := by simp [h]
    cases List.eq_of_mem_replicate hslash

/-- Behind a blank, a word of one letter too many is reported where the blank stands. -/
theorem overlong_reported_at_blank :
    tokenize .unlimited "t.src" (.ofBytes (0x20 :: List.replicate (runLimit + 1) 0x78)) =
        .error ⟨.tooLong, ⟨"t.src", 1, 1⟩⟩ ∧
      Overlong (0x20 :: List.replicate (runLimit + 1) 0x78) [] [0x20]
        (List.replicate (runLimit + 1) 0x78) ∧
      Site.behind "t.src" [0x20] = ⟨"t.src", 1, 2⟩ := by
  have hlong : Overlong (0x20 :: List.replicate (runLimit + 1) 0x78) [] [0x20]
      (List.replicate (runLimit + 1) 0x78) := by
    refine ⟨[], .word, [], ?_, .blanks (by simp) (by simp [Run.isBlank]), ?_, ?_⟩
    · rw [List.append_nil]
      exact .start
    · refine Run.raw_replicate (Nat.succ_ne_zero _) fun b hb => ?_
      cases hb
    · rw [List.length_replicate]
      exact Nat.lt_succ_self _
  exact ⟨@tooLong_of_overlong _ _ (.ofBytes _) _ _ _ rfl hlong, hlong, by decide⟩

/-- A source that has tokens is read to its end. -/
theorem exists_last_gap {ts : List Token} (h : tokenize budget file s = .ok ts) :
    budget.check = none ∧ s.broken = none ∧
      ∃ before last after, Passes s.bytes before last after ∧ Run.Gap last after [] := by
  have hb : budget.check = none := check_of_tokenize fun e he => by cases h.symm.trans he
  rcases tokenize_cases hb file s with hend | ⟨before, gap, text, hlong⟩ | ⟨e, he, -⟩
  · exact ⟨hb, hend⟩
  · cases h.symm.trans (tooLong_of_overlong hb hlong)
  · cases h.symm.trans he

theorem EndsInComment.ahead_eq_nil {s front text : List UInt8} (h : EndsInComment s front text) :
    ∃ last, Passes s front last text ∧ Run.Gap last text [] ∧ Run.ahead last text = [] := by
  obtain ⟨last, hp, hl, ht⟩ := h
  refine ⟨last, hp, ?_, ?_⟩
  · have hgap : Run.Gap last (text ++ []) [] :=
      .comment hl ht (List.forall_mem_nil _) fun b hb => by cases hb
    rwa [List.append_nil] at hgap
  · rw [Run.ahead, if_pos hl, List.dropWhile_eq_nil_iff]
    exact forall_bne_of_not_mem ht

/-- If a source ends in a comment that no newline follows, the end of the file stands behind the two
slashes. It stands at the end of the source exactly if no text of such a comment is in between. -/
theorem eof_behind_last_slashes {ts : List Token} (h : tokenize budget file s = .ok ts) :
    ∃ us eof, ts = us ++ [eof] ∧ eof.kind = .eof ∧
      (∀ front text, EndsInComment s.bytes front text → eof.site = .behind file front) ∧
      (eof.site = .behind file s.bytes ↔
        ∀ front text, EndsInComment s.bytes front text → text = []) := by
  obtain ⟨hb, hwhole, before, last, after, hp, hg⟩ := exists_last_gap h
  obtain ⟨us, st, hst, hok⟩ := tokenize_of_gap hb hwhole hp hg
  obtain rfl := Except.ok.inj (h.symm.trans hok)
  have hcomment : ∀ front text, EndsInComment s.bytes front text →
      (Stream.skip (.of (Run.ahead last after)) st).here = .behind file front := by
    intro front text hc
    obtain ⟨last', hp', hg', hnil⟩ := hc.ahead_eq_nil
    obtain ⟨us', st', hst', hok'⟩ := tokenize_of_gap hb hwhole hp' hg'
    have heq := (List.append_inj_right' (Except.ok.inj (h.symm.trans hok')) rfl)
    rw [(Token.mk.inj (List.cons.inj heq).1).2.2, hnil]
    exact hst'.here
  refine ⟨us, _, rfl, rfl, hcomment, fun hend front text hc => ?_, fun hnone => ?_⟩
  · obtain ⟨last', hp', -⟩ := id hc
    by_contra hne
    rw [hcomment front text hc, ← hp'.append_eq] at hend
    exact (Site.before_behind file front hne).ne hend
  · obtain ⟨comment, blanks, rfl, ht, -, hline, hahead⟩ := hg.split
    rw [List.append_nil, List.append_nil] at hahead
    rw [← hp.append_eq, hahead]
    refine Stream.skip_gap hst.here ht ?_
    rcases hline with hnil | ⟨hl, hnewline⟩
    · exact .inl hnil
    · cases blanks with
      | nil =>
        rw [List.append_nil] at hp
        exact .inl (hnone before comment ⟨last, hp, hl, ht⟩)
      | cons b blanks =>
        right
        rw [hnewline b rfl]
        exact List.mem_cons_self

/-- Two slashes end in front of anything. -/
theorem Run.raw_slashes (after : List UInt8) : Raw .symbol [slash, slash] after where
  is := by
    refine .symbol (fun b hb => ?_) fun _ _ => .inr (.inr List.suffix_rfl)
    obtain rfl : b = slash := by simpa using hb
    exact ⟨rfl, rfl⟩
  nonempty := List.cons_ne_nil _ _
  slashes front back h := by
    have hlength := congrArg List.length h
    simp only [List.length_append, List.length_cons, List.length_nil] at hlength
    exact List.eq_nil_of_length_eq_zero (by omega)

/-- In `x //b` the comment is the second run. -/
theorem eof_behind_last_slashes_of_comment :
    EndsInComment [0x78, 0x20, 0x2f, 0x2f, 0x62] [0x78, 0x20, 0x2f, 0x2f] [0x62] ∧
      ∃ ts us eof, tokenize .unlimited "t.src" (.ofBytes [0x78, 0x20, 0x2f, 0x2f, 0x62]) = .ok ts ∧
        ts = us ++ [eof] ∧ eof.kind = .eof ∧ eof.site = ⟨"t.src", 1, 5⟩ ∧
        eof.site ≠ .behind "t.src" [0x78, 0x20, 0x2f, 0x2f, 0x62] := by
  have hstop : ∀ b ∈ [0x20, 0x2f, 0x2f, 0x62].head?, Run.isAlnum b = false := by
    intro b hb
    obtain rfl := Option.some.inj hb
    rfl
  have hword : Passes [0x78, 0x20, 0x2f, 0x2f, 0x62] [0x78] [0x78] [0x20, 0x2f, 0x2f, 0x62] :=
    .run .start (.blanks (by decide) (List.forall_mem_nil _))
      (Run.raw_replicate Nat.one_ne_zero hstop) (by decide) trivial
  have hgap : Run.Gap [0x78] [0x20] [0x2f, 0x2f, 0x62] :=
    .blanks (by decide) (List.forall_mem_singleton.mpr rfl)
  have hslashes : Passes [0x78, 0x20, 0x2f, 0x2f, 0x62] [0x78, 0x20, 0x2f, 0x2f] [0x2f, 0x2f]
      [0x62] :=
    .run hword hgap (Run.raw_slashes [0x62]) (by decide)
      (.single rfl (.single rfl .nil))
  have hc : EndsInComment [0x78, 0x20, 0x2f, 0x2f, 0x62] [0x78, 0x20, 0x2f, 0x2f] [0x62] :=
    ⟨[0x2f, 0x2f], hslashes, List.suffix_rfl, by decide⟩
  have hok : tokenize .unlimited "t.src" (.ofBytes [0x78, 0x20, 0x2f, 0x2f, 0x62]) =
      .ok [⟨.ident, "x", ⟨"t.src", 1, 1⟩⟩, ⟨.eof, "", ⟨"t.src", 1, 5⟩⟩] := by decide +kernel
  obtain ⟨us, eof, hts, hkind, hsite, hend⟩ := eof_behind_last_slashes hok
  refine ⟨hc, _, us, eof, hok, hts, hkind, hsite _ _ hc, fun heq => ?_⟩
  cases hend.mp heq _ _ hc

/-- In `a;//tail` the end of the file stands in front of the text of the comment. -/
theorem eof_not_behind_tail :
    tokenize .unlimited "t.src" (.ofBytes [0x61, 0x3b, 0x2f, 0x2f, 0x74, 0x61, 0x69, 0x6c]) =
        .ok [⟨.ident, "a", ⟨"t.src", 1, 1⟩⟩, ⟨.semi, ";", ⟨"t.src", 1, 2⟩⟩,
          ⟨.eof, "", ⟨"t.src", 1, 5⟩⟩] ∧
      Site.behind "t.src" [0x61, 0x3b, 0x2f, 0x2f, 0x74, 0x61, 0x69, 0x6c] = ⟨"t.src", 1, 9⟩ := by
  decide +kernel

end ThreeAddress
