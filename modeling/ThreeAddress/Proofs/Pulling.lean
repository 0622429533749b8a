import ThreeAddress.Proofs.Whereabouts

namespace ThreeAddress

/-- A lexer between two pulls: what is queued, and whether reading is over. -/
structure Puller where
  stream : Stream
  queued : List Token
  done : Bool

namespace Puller

def start (file : String) (s : Source) : Puller := ⟨.start file s, [], false⟩

/-- Reads runs until one gives tokens, and the fault if one is met. -/
def fill (budget : Budget) (s : Stream) : Option LexError × Puller :=
  match budget.check with
  | some e => (some ⟨.exhausted e, s.here⟩, ⟨s, [], false⟩)
  | none =>
    match _ : s.scan with
    | (.tokens ts, s') => if ts.isEmpty then fill budget s' else (none, ⟨s', ts, false⟩)
    | (.finished eof, s') => (none, ⟨s', [eof], true⟩)
    | (.failed e ts, s') => (some e, ⟨s', ts, false⟩)
termination_by s.cursor.rest.length
decreasing_by exact Stream.scan_rest_lt ‹_›

def pop (p : Puller) : Option (Except LexError Token) × Puller :=
  match p.queued with
  | [] => (none, p)
  | t :: ts => (some (.ok t), { p with queued := ts })

/-- One pull. A fault ends the reading and leaves the queue as it is. -/
def next (budget : Budget) (p : Puller) : Option (Except LexError Token) × Puller :=
  if p.queued.isEmpty && !p.done then
    match fill budget p.stream with
    | (some e, p') => (some (.error e), { p' with done := true })
    | (none, p') => p'.pop
  else p.pop

/-- The lexer after a number of pulls, each under a budget of its own. -/
def after (budget : Nat → Budget) (p : Puller) : Nat → Puller
  | 0 => p
  | n + 1 => (next (budget n) (after budget p n)).2

/-- What a pull answers, the first having number 0. -/
def answer (budget : Nat → Budget) (p : Puller) (n : Nat) : Option (Except LexError Token) :=
  (next (budget n) (after budget p n)).1

/-- All that further pulls give. -/
def ahead (budget : Nat → Budget) (pull : Nat) (p : Puller) : List (Except LexError Token) :=
  p.queued.map .ok ++ if p.done then [] else p.stream.items budget (pull + p.queued.length)

variable {budget : Nat → Budget} {pull : Nat}

theorem items_of_fill {s : Stream} {p : Puller} (h : fill (budget pull) s = (none, p)) :
    p.queued ≠ [] ∧ s.items budget pull = p.ahead budget pull := by
  fun_induction fill (budget pull) s with
  | case1 s e he => cases h
  | case2 s hb ts s' hscan hnil ih =>
    obtain rfl := List.isEmpty_iff.mp hnil
    rw [Stream.items_of_tokens hb hscan]
    exact ih h
  | case3 s hb ts s' hscan hne =>
    cases h
    rw [Stream.items_of_tokens hb hscan]
    exact ⟨fun hnil => hne (List.isEmpty_iff.mpr hnil), rfl⟩
  | case4 s hb eof s' hscan =>
    cases h
    rw [Stream.items_of_finished hb hscan]
    exact ⟨List.cons_ne_nil _ _, rfl⟩
  | case5 s hb e ts s' hscan => cases h

theorem items_of_fill_error {s : Stream} {e : LexError} {p : Puller}
    (h : fill (budget pull) s = (some e, p)) :
    s.items budget pull = .error e :: p.queued.map .ok := by
  fun_induction fill (budget pull) s with
  | case1 s e he =>
    cases h
    exact Stream.items_of_exhausted he
  | case2 s hb ts s' hscan hnil ih =>
    obtain rfl := List.isEmpty_iff.mp hnil
    rw [Stream.items_of_tokens hb hscan]
    exact ih h
  | case3 s hb ts s' hscan hne => cases h
  | case4 s hb eof s' hscan => cases h
  | case5 s hb e ts s' hscan =>
    cases h
    exact Stream.items_of_failed hb hscan

theorem pop_ahead {p : Puller} (h : p.queued ≠ [] ∨ p.done = true) :
    p.pop.1 = (p.ahead budget pull).head? ∧
      p.pop.2.ahead budget (pull + 1) = (p.ahead budget pull).tail := by
  obtain ⟨s, queued, done⟩ := p
  cases queued with
  | nil =>
    obtain rfl : done = true := h.resolve_left fun hne => hne rfl
    exact ⟨rfl, rfl⟩
  | cons t ts =>
    refine ⟨rfl, ?_⟩
    simp [pop, ahead, Nat.add_assoc, Nat.add_comm 1]

/-- A pull takes the first of what is ahead. -/
theorem next_ahead (p : Puller) :
    (next (budget pull) p).1 = (p.ahead budget pull).head? ∧
      (next (budget pull) p).2.ahead budget (pull + 1) = (p.ahead budget pull).tail := by
  unfold next
  split
  · next hempty =>
    obtain ⟨hqueued, hdone⟩ : p.queued = [] ∧ p.done = false := by simpa using hempty
    have hahead : p.ahead budget pull = p.stream.items budget pull := by
      simp [ahead, hqueued, hdone]
    rw [hahead]
    split
    · next e p' hfill =>
      rw [items_of_fill_error hfill]
      exact ⟨rfl, by simp [ahead]⟩
    · next p' hfill =>
      obtain ⟨hne, hitems⟩ := items_of_fill hfill
      rw [hitems]
      exact pop_ahead (.inl hne)
  · next hempty =>
    refine pop_ahead ?_
    by_cases hqueued : p.queued = []
    · right
      simpa [hqueued] using hempty
    · exact .inl hqueued

theorem after_ahead (p : Puller) (n : Nat) :
    (after budget p n).ahead budget n = (p.ahead budget 0).drop n := by
  induction n with
  | zero => rfl
  | succ n ih => rw [after, (next_ahead _).2, ih, List.tail_drop]

/-- Pull by pull a lexer gives the items of its source. -/
theorem answer_start (file : String) (s : Source) (n : Nat) :
    (start file s).answer budget n = ((Stream.start file s).items budget 0)[n]? := by
  have hahead : (start file s).ahead budget 0 = (Stream.start file s).items budget 0 := rfl
  rw [answer, (next_ahead _).1, after_ahead, hahead, List.head?_drop]

end Puller

/-- Tokens one behind the other, none of them in front of one place and all in front of another. -/
structure Site.Between (a : Site) (ts : List Token) (b : Site) : Prop where
  increasing : ts.Pairwise fun t u => t.site.Before u.site
  first : ∀ t ∈ ts, ¬t.site.Before a
  last : ∀ t ∈ ts, t.site.Before b
  onward : ¬b.Before a

namespace Site

/-- A place is not in front of what is not in front of it. -/
theorem Before.of_not_before {a b c : Site} (h : a.Before b) (hc : ¬c.Before b) : a.Before c := by
  unfold Before at h hc ⊢
  omega

theorem not_before_trans {a b c : Site} (h : ¬b.Before a) (hc : ¬c.Before b) : ¬c.Before a := by
  unfold Before at h hc ⊢
  omega

theorem not_before_self (a : Site) : ¬a.Before a := fun h => h.ne rfl

/-- Places of one line are ordered by their columns. -/
theorem before_column {file : String} {line m n : Nat} :
    Before ⟨file, line, m⟩ ⟨file, line, n⟩ ↔ m < n := by
  simp [Before]

namespace Between

variable {a b c : Site} {ts us : List Token}

theorem nil (h : ¬b.Before a) : Between a [] b :=
  ⟨.nil, List.forall_mem_nil _, List.forall_mem_nil _, h⟩

theorem singleton {t : Token} (ha : ¬t.site.Before a) (hb : t.site.Before b) :
    Between a [t] b where
  increasing := List.pairwise_singleton _ _
  first := List.forall_mem_singleton.mpr ha
  last := List.forall_mem_singleton.mpr hb
  onward hba := by
    unfold Before at ha hb hba
    omega

theorem column (file : String) (line : Nat) {m n : Nat} (h : m < n) (k : TokenKind) (x : String) :
    Between ⟨file, line, m⟩ [⟨k, x, ⟨file, line, m⟩⟩] ⟨file, line, n⟩ :=
  singleton (not_before_self _) (before_column.mpr h)

theorem append (h : Between a ts b) (h' : Between b us c) : Between a (ts ++ us) c where
  increasing := List.pairwise_append.mpr ⟨h.increasing, h'.increasing,
    fun t ht u hu => (h.last t ht).of_not_before (h'.first u hu)⟩
  first := List.forall_mem_append.mpr
    ⟨h.first, fun u hu => not_before_trans h.onward (h'.first u hu)⟩
  last := List.forall_mem_append.mpr ⟨fun t ht => (h.last t ht).of_not_before h'.onward, h'.last⟩
  onward := not_before_trans h.onward h'.onward

end Between

end Site

/-- Reading lossily gives no more characters than there are octets. -/
theorem Text.length_decodeFrom_le (p : Option Pending) (bytes : List UInt8) :
    (decodeFrom p bytes).length ≤ bytes.length + p.toList.length := by
  have hfirst (b : UInt8) : (first b).1.length + (first b).2.toList.length = 1 := by
    unfold first
    repeat' split
    all_goals rfl
  have hadvance (p : Option Pending) (b : UInt8) :
      (advance p b).1.length + (advance p b).2.toList.length ≤ 1 + p.toList.length := by
    have hb := hfirst b
    cases p with
    | none => simpa [advance] using hb.le
    | some p =>
      unfold advance
      simp only
      split
      · split <;> simp
      · simp only [List.length_cons, Option.toList_some, List.length_nil]
        omega
  induction bytes generalizing p with
  | nil => cases p <;> simp [decodeFrom]
  | cons b bytes ih =>
    have hb := hadvance p b
    have hrest := ih (advance p b).2
    rw [decodeFrom_cons, List.length_append, List.length_cons]
    omega

theorem Text.length_decodeLossy_le (bytes : List UInt8) :
    (decodeLossy bytes).length ≤ bytes.length := by
  rw [decodeLossy, List.length_map]
  exact length_decodeFrom_le none bytes

/-- The tokens of a symbol run stand in it, in front of the character that ends it. -/
theorem between_splitSymbols (file : String) (line column stop : Nat) (cs : List Char)
    (h : (∃ c, (splitSymbols file line column cs).2 = .illegal c stop) ∨
      column + cs.length ≤ stop) :
    Site.Between ⟨file, line, column⟩ (splitSymbols file line column cs).1 ⟨file, line, stop⟩ := by
  have hnil {m : Nat} (hle : m ≤ stop) : Site.Between ⟨file, line, m⟩ [] ⟨file, line, stop⟩ := by
    refine .nil ?_
    rw [Site.before_column]
    omega
  fun_induction splitSymbols file line column cs with
  | case1 column => exact hnil (by simpa using h)
  | case2 column c k hk => exact .column file line (by simp at h; omega) k _
  | case3 column c hk => exact hnil (by simp at h; omega)
  | case4 column c d rest hc => exact hnil (by simp at h; omega)
  | case5 column c d rest hc k hk ts e he ih =>
    rw [he] at ih
    have hrest := ih (h.imp_right fun hle => by simp only [List.length_cons] at hle; omega)
    exact (Site.Between.column file line (by omega) k _).append hrest
  | case6 column c d rest hc hp k hk ts e he ih =>
    rw [he] at ih
    have hrest := ih (h.imp_right fun hle => by simp only [List.length_cons] at hle ⊢; omega)
    exact (Site.Between.column file line (by omega) k _).append hrest
  | case7 column c d rest hc hp hk => exact hnil (by simp at h; omega)

theorem line_splitSymbols (file : String) (line column : Nat) (cs : List Char) :
    ∀ t ∈ (splitSymbols file line column cs).1, t.site.line = line := by
  fun_induction splitSymbols file line column cs with
  | case1 => simp
  | case2 => simp
  | case3 => simp
  | case4 => simp
  | case5 column c d rest hc k hk ts e he ih =>
    rw [he] at ih
    simpa using ih
  | case6 column c d rest hc hp k hk ts e he ih =>
    rw [he] at ih
    simpa using ih
  | case7 => simp

theorem Cursor.unreadable_of_skipLine {c c' : Cursor} {e : ReadError}
    (h : c.skipLine = (.error e, c')) : ∃ reason, e = .unreadable reason := by
  unfold skipLine at h
  simp only at h
  split at h
  · split at h
    · next reason hw =>
      cases h
      exact ⟨reason, rfl⟩
    · cases h
  · cases h

/-- Faults that can be met inside a symbol run, with tokens of the run in front of them: a character
that starts no token, and a comment whose line cannot be read to its end. -/
def LexFault.insideRun : LexFault → Bool
  | .illegalCharacter _ | .unreadable _ => true
  | _ => false

namespace Stream

/-- Tokens that a fault leaves queued: they are of its line, in front of it. -/
structure Late (ts : List Token) (e : LexError) : Prop where
  inside : ts ≠ [] → e.fault.insideRun = true
  line : ∀ t ∈ ts, t.site.line = e.site.line

theorem Late.nil (e : LexError) : Late [] e := ⟨fun hne => absurd rfl hne, List.forall_mem_nil _⟩

/-- Tokens of a scan stand between where the stream stood and where it stands then; if it fails,
they stand in front of the fault. -/
def Scanned.Onward (a : Site) : Scanned × Stream → Prop
  | (.tokens ts, st) => Site.Between a ts st.here
  | (.finished eof, _) => ¬eof.site.Before a
  | (.failed e ts, _) => Site.Between a ts e.site ∧ Late ts e

theorem skip_onward (b : Blank) (st : Stream) : ¬(skip b st).here.Before st.here := by
  unfold skip
  split <;> simp only [here, Site.Before] <;> omega

theorem onward_scanSymbols {st : Stream} {bytes : List UInt8} {start : Site}
    (hstart : st.here = { start with column := start.column + bytes.length }) {a : Site}
    (ha : ¬start.Before a) : Scanned.Onward a (scanSymbols start bytes st) := by
  have hlength := Text.length_decodeLossy_le bytes
  have hbetween : Site.Between start
      (splitSymbols start.file start.line start.column (Text.decodeLossy bytes)).1 st.here := by
    rw [hstart]
    exact between_splitSymbols _ _ _ _ _ (.inr (by omega))
  have hline := line_splitSymbols start.file start.line start.column (Text.decodeLossy bytes)
  unfold scanSymbols
  simp only
  split
  · exact (Site.Between.nil ha).append hbetween
  · split
    · exact (Site.Between.nil ha).append hbetween
    · next e c hskip =>
      obtain ⟨reason, rfl⟩ := Cursor.unreadable_of_skipLine hskip
      refine ⟨(Site.Between.nil ha).append hbetween, fun _ => rfl, ?_⟩
      rw [hstart]
      exact hline
  · next c column hillegal =>
    refine ⟨(Site.Between.nil ha).append ?_, fun _ => rfl, hline⟩
    exact between_splitSymbols _ _ _ _ _ (.inl ⟨c, hillegal⟩)

theorem onward_scan (st : Stream) : Scanned.Onward st.here st.scan := by
  unfold scan
  split
  · exact ⟨.nil (Site.not_before_self _), .nil _⟩
  · next c hn => exact skip_onward c.tail { st with cursor := c }
  · next run c hn =>
    obtain ⟨-, b, more, hdrop, -, rfl, -, -⟩ := Cursor.next_eq_run hn
    have hskip := skip_onward (.of (st.cursor.rest.takeWhile Run.isBlank)) { st with cursor := c }
    simp only
    generalize skip _ { st with cursor := c } = next at hskip ⊢
    have hblank : Run.isBlank b = false :=
      (Run.maximal_takeWhile Run.isBlank st.cursor.rest).stop b (by rw [hdrop]; rfl)
    have hbytes : 0 < ((b :: more).take (Run.length (b :: more))).length := by
      have hpos := @Run.length_pos b more hblank
      simp only [List.length_take, List.length_cons]
      omega
    have hlone (k : TokenKind) (x : String) := (Site.Between.nil hskip).append
      (Site.Between.column next.file next.line (Nat.lt_add_of_pos_right hbytes) k x)
    split
    · exact hlone _ _
    · unfold scanNumber
      simp only
      split
      · exact hlone _ _
      · exact ⟨.nil hskip, .nil _⟩
    · exact onward_scanSymbols rfl hskip

/-- All that pulling gives, in the order it comes out: tokens, then maybe a fault, then the tokens
that were queued when it was met. -/
structure Pulled where
  tokens : List Token
  fault : Option LexError
  late : List Token

def Pulled.items (p : Pulled) : List (Except LexError Token) :=
  p.tokens.map .ok ++ (p.fault.map .error).toList ++ p.late.map .ok

/-- The tokens stand one behind the other from a place on, and all in front of the fault. -/
structure Pulled.From (a : Site) (p : Pulled) : Prop where
  order : ∃ b, Site.Between a (p.tokens ++ p.late) b ∧ ∀ e ∈ p.fault, e.site = b
  late : p.late ≠ [] → ∃ e ∈ p.fault, Late p.late e

theorem Pulled.From.fault {a : Site} {e : LexError} {ts : List Token}
    (h : Site.Between a ts e.site) (hl : Late ts e) : From a ⟨[], some e, ts⟩ where
  order := ⟨e.site, h, fun _ he => by cases he; rfl⟩
  late _ := ⟨e, rfl, hl⟩

theorem Pulled.From.prepend {a b : Site} {ts : List Token} {p : Pulled} (h : p.From b)
    (hts : Site.Between a ts b) : From a { p with tokens := ts ++ p.tokens } where
  order := by
    obtain ⟨c, hbetween, hfault⟩ := h.order
    refine ⟨c, ?_, hfault⟩
    rw [List.append_assoc]
    exact hts.append hbetween
  late := h.late

/-- What is pulled, from where the stream stands. -/
theorem exists_pulled (budget : Nat → Budget) (pull : Nat) (st : Stream) :
    ∃ p : Pulled, st.items budget pull = p.items ∧ p.From st.here := by
  fun_induction items budget pull st with
  | case1 pull st e he =>
    exact ⟨⟨[], some _, []⟩, rfl, .fault (.nil (Site.not_before_self _)) (.nil _)⟩
  | case2 pull st he ts st' hscan ih =>
    have honward := onward_scan st
    rw [hscan] at honward
    obtain ⟨p, hitems, hp⟩ := ih
    refine ⟨_, ?_, hp.prepend honward⟩
    rw [hitems]
    simp [Pulled.items]
  | case3 pull st he eof st' hscan =>
    have honward : ¬eof.site.Before st.here := by
      have honward := onward_scan st
      rwa [hscan] at honward
    have hbetween : Site.Between st.here [eof] { eof.site with column := eof.site.column + 1 } :=
      .singleton honward (.inr ⟨rfl, Nat.lt_succ_self _⟩)
    refine ⟨⟨[eof], none, []⟩, rfl, ⟨_, hbetween, fun e he => ?_⟩, fun hne => absurd rfl hne⟩
    cases he
  | case4 pull st he e ts st' hscan =>
    have honward := onward_scan st
    rw [hscan] at honward
    exact ⟨⟨[], some e, ts⟩, rfl, .fault honward.1 honward.2⟩

/-- A fault is the last item unless tokens are late. -/
theorem Pulled.From.late_eq_nil_iff {a : Site} {p : Pulled} (h : p.From a) :
    (∀ (n : Nat) (e : LexError), p.items[n]? = some (.error e) → ∀ m, n < m → p.items[m]? = none) ↔
      p.late = [] := by
  have hlate := h.late
  obtain ⟨us, fault, late⟩ := p
  constructor
  · intro hlast
    cases late with
    | nil => rfl
    | cons t ts =>
      obtain ⟨e, he, -⟩ := hlate (List.cons_ne_nil _ _)
      obtain rfl : fault = some e := he
      have hnone := hlast us.length e (by simp [items]) (us.length + 1) (Nat.lt_succ_self _)
      simp [items] at hnone
  · rintro rfl n e hn m hm
    have hfault : (fault.map (Except.error (α := Token))).toList.length ≤ 1 := by
      cases fault <;> simp
    have hle : us.length ≤ n := by
      by_contra hlt
      have hok : (items ⟨us, fault, []⟩)[n]? = some (.ok us[n]) := by
        simp [items, List.getElem?_append, Nat.not_le.mp hlt]
      rw [hok] at hn
      cases hn
    simp only [items, List.map_nil, List.append_nil, List.getElem?_eq_none_iff, List.length_append,
      List.length_map]
    omega

end Stream

/-- What pulling a lexer gives, under budgets that may change from pull to pull and over a source
that may break off. All tokens come out in the order of the source and stand in front of the fault,
if there is one. Tokens that come out behind the fault were queued in its run, and a fault is the
last answer exactly if there are none. -/
theorem tokens_behind_fault (budget : Nat → Budget) (file : String) (s : Source) :
    ∃ p : Stream.Pulled,
      (∀ n, (Puller.start file s).answer budget n = p.items[n]?) ∧
      (p.tokens ++ p.late).Pairwise (fun t u => t.site.Before u.site) ∧
      (∀ e ∈ p.fault, ∀ t ∈ p.tokens ++ p.late, t.site.Before e.site) ∧
      (p.late ≠ [] → ∃ e ∈ p.fault, e.fault.insideRun = true ∧
        ∀ t ∈ p.late, t.site.line = e.site.line) ∧
      ((∀ n e, (Puller.start file s).answer budget n = some (.error e) →
        ∀ m, n < m → (Puller.start file s).answer budget m = none) ↔ p.late = []) := by
  obtain ⟨p, hitems, hp⟩ := Stream.exists_pulled budget 0 (.start file s)
  have hanswer (n : Nat) : (Puller.start file s).answer budget n = p.items[n]? := by
    rw [Puller.answer_start, hitems]
  obtain ⟨b, hbetween, hfault⟩ := hp.order
  refine ⟨p, hanswer, hbetween.increasing, ?_, ?_, ?_⟩
  · intro e he
    rw [hfault e he]
    exact hbetween.last
  · intro hne
    obtain ⟨e, he, hlate⟩ := hp.late hne
    exact ⟨e, he, hlate.inside hne, hlate.line⟩
  · simp only [hanswer]
    exact hp.late_eq_nil_iff

/-- A semicolon in front of an illegal character comes out behind the fault. -/
theorem semicolon_behind_fault :
    (Puller.start "t.src" (.ofBytes [0x3b, 0x40])).answer (fun _ => .unlimited) 0 =
      some (.error ⟨.illegalCharacter '@', ⟨"t.src", 1, 2⟩⟩) ∧
    (Puller.start "t.src" (.ofBytes [0x3b, 0x40])).answer (fun _ => .unlimited) 1 =
      some (.ok ⟨.semi, ";", ⟨"t.src", 1, 1⟩⟩) := by
  decide +kernel

end ThreeAddress
