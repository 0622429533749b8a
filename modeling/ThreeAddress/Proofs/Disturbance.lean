import ThreeAddress.Proofs.Whereabouts
import ThreeAddress.Token.Reply

namespace ThreeAddress

/-- The tokens in front of the first error. -/
def yielded : List (Except LexError Token) → List Token
  | .ok t :: rest => t :: yielded rest
  | _ => []

@[simp] theorem yielded_map_ok (ts : List Token) (rest : List (Except LexError Token)) :
    yielded (ts.map .ok ++ rest) = ts ++ yielded rest := by
  induction ts with
  | nil => rfl
  | cons t ts ih => exact congrArg (t :: ·) ih

@[simp] theorem yielded_error (e : LexError) (rest : List (Except LexError Token)) :
    yielded (.error e :: rest) = [] :=
  rfl

/-- The flag is raised just before a pull and stays so. -/
def Budget.raised (k : Nat) (budget : Nat → Budget) (pull : Nat) : Budget :=
  { budget pull with cancelled := (budget pull).cancelled || k ≤ pull }

namespace Budget

variable {k pull : Nat} {budget : Nat → Budget}

theorem raised_of_le (h : k ≤ pull) : (raised k budget pull).check = some .cancelled := by
  simp [raised, check, h]

/-- What is still read was asked for before the flag was raised. -/
theorem lt_of_raised (h : (raised k budget pull).check = none) :
    pull < k ∧ (budget pull).check = none := by
  have hlt : pull < k := by
    by_contra hle
    rw [raised_of_le (Nat.not_lt.mp hle)] at h
    cases h
  have hsame : raised k budget pull = budget pull := by simp [raised, Nat.not_le.mpr hlt]
  exact ⟨hlt, hsame ▸ h⟩

end Budget

namespace Run

variable {p : UInt8 → Bool} {input : List UInt8}

theorem takeWhile_append_of_lt (h : (input.takeWhile p).length < input.length) (ext : List UInt8) :
    (input ++ ext).takeWhile p = input.takeWhile p := by
  rw [List.takeWhile_append, if_neg h.ne]

theorem symbolLength_append_of_lt {afterSlash : Bool} {n : Nat}
    (h : symbolLength afterSlash n input < n + input.length) (ext : List UInt8) :
    symbolLength afterSlash n (input ++ ext) = symbolLength afterSlash n input := by
  induction input generalizing afterSlash n with
  | nil => simp [symbolLength] at h
  | cons b input ih =>
    simp only [List.cons_append, symbolLength] at h ⊢
    split
    · rfl
    · split
      · rfl
      · next hb hslash =>
        rw [if_neg hb, if_neg hslash, List.length_cons] at h
        exact ih (by omega)

/-- A run that ends in front of a byte does not depend on what is behind the byte. -/
theorem length_append_of_lt {b : UInt8} {more : List UInt8} (hb : isBlank b = false)
    (h : length (b :: more) < (b :: more).length) (ext : List UInt8) :
    length (b :: more ++ ext) = length (b :: more) := by
  obtain ⟨b', more, rfl⟩ : ∃ b' rest, more = b' :: rest := by
    cases more with
    | nil =>
      have hpos := @length_pos b [] hb
      simp only [List.length_singleton] at h
      omega
    | cons b' rest => exact ⟨b', rest, rfl⟩
  cases hclass : classify b with
  | word =>
    simp only [List.cons_append, length, hclass] at h ⊢
    exact congrArg List.length (takeWhile_append_of_lt h ext)
  | number =>
    -- Two bytes tell whether the number has radix 16.
    rw [length_of_number hclass] at h
    have htake := takeWhile_append_of_lt h ext
    rw [List.cons_append, length_of_number hclass, length_of_number hclass]
    exact congrArg List.length htake
  | symbol =>
    simp only [List.cons_append, length, hclass] at h ⊢
    rw [← Nat.zero_add (b :: b' :: more).length] at h
    exact symbolLength_append_of_lt h ext

end Run

/-- A run in front of more bytes is read whether the source breaks off behind them or not. -/
theorem Cursor.next_of_more {c : Cursor} (h : c.atEnd = false) {b : UInt8} {more : List UInt8}
    (hrest : c.rest.dropWhile Run.isBlank = b :: more)
    (hshort : Run.length (b :: more) ≤ runLimit)
    (hmore : (b :: more).drop (Run.length (b :: more)) ≠ []) :
    c.next = (.ok (some ⟨Run.classify b, (b :: more).take (Run.length (b :: more)),
        .of (c.rest.takeWhile Run.isBlank)⟩),
      ⟨(b :: more).drop (Run.length (b :: more)), c.broken, false, c.tail⟩) := by
  have hempty : ((b :: more).drop (Run.length (b :: more))).isEmpty = false := by
    simpa using hmore
  simp only [next, h, Run.skipBlank_eq, hrest, Nat.not_lt.mpr hshort, hempty, if_false,
    Bool.false_eq_true]

/-- The cursor of a longer source. -/
def Cursor.extend (ext : Source) (c : Cursor) : Cursor :=
  ⟨c.rest ++ ext.bytes, ext.broken, c.atEnd, c.tail⟩

def Stream.extend (ext : Source) (st : Stream) : Stream :=
  { st with cursor := st.cursor.extend ext }

/-- A source that breaks off somewhere ahead. -/
structure Cursor.BreaksOff (c : Cursor) : Prop where
  broken : c.broken ≠ none
  fresh : c.atEnd = false

namespace Cursor.BreaksOff

variable {c c' : Cursor} (h : c.BreaksOff) (ext : Source)
include h

/-- A run that is read in front of the break is read from a longer source as well. -/
theorem next {r : Run} (hn : c.next = (.ok (some r), c')) :
    c'.BreaksOff ∧ (c.extend ext).next = (.ok (some r), c'.extend ext) := by
  obtain ⟨-, b, more, hdrop, hshort, rfl, rfl, hwhole⟩ := next_eq_run hn
  have hb : Run.isBlank b = false :=
    (Run.maximal_takeWhile Run.isBlank c.rest).stop b (by rw [hdrop]; rfl)
  have hrest : (b :: more).drop (Run.length (b :: more)) ≠ [] := fun hnil => h.broken (hwhole hnil)
  have hlt : Run.length (b :: more) < (b :: more).length := by
    rw [← Nat.not_le]
    exact fun hle => hrest (List.drop_eq_nil_of_le hle)
  have hlength := Run.length_append_of_lt hb hlt ext.bytes
  have hblank : (c.rest.takeWhile Run.isBlank).length < c.rest.length := by
    have hsplit := congrArg List.length
      (List.takeWhile_append_dropWhile (p := Run.isBlank) (l := c.rest))
    rw [hdrop, List.length_append, List.length_cons] at hsplit
    omega
  have htake := Run.takeWhile_append_of_lt hblank ext.bytes
  have hdrop' : (c.rest ++ ext.bytes).dropWhile Run.isBlank = b :: (more ++ ext.bytes) := by
    rw [List.dropWhile_append, hdrop]
    rfl
  have hrest' : (b :: (more ++ ext.bytes)).drop (Run.length (b :: (more ++ ext.bytes))) =
      (b :: more).drop (Run.length (b :: more)) ++ ext.bytes := by
    rw [← List.cons_append, hlength, List.drop_append_of_le_length hlt.le]
  have htext : (b :: (more ++ ext.bytes)).take (Run.length (b :: (more ++ ext.bytes))) =
      (b :: more).take (Run.length (b :: more)) := by
    rw [← List.cons_append, hlength, List.take_append_of_le_length hlt.le]
  have hempty : ((b :: more).drop (Run.length (b :: more))).isEmpty = false := by
    simpa using hrest
  refine ⟨⟨h.broken, hempty⟩, ?_⟩
  have hnext := next_of_more (c := c.extend ext) h.fresh hdrop'
    (by rwa [← List.cons_append, hlength])
    (by rw [hrest']; exact List.append_ne_nil_of_left_ne_nil hrest _)
  rw [hnext, hrest', htext]
  simp only [extend, htake, hempty]

theorem skipLine (hs : c.skipLine = (.ok (), c')) :
    c'.BreaksOff ∧ (c.extend ext).skipLine = (.ok (), c'.extend ext) := by
  obtain ⟨reason, hreason⟩ := Option.ne_none_iff_exists'.mp h.broken
  unfold Cursor.skipLine at hs
  simp only [hreason] at hs
  split at hs
  · cases hs
  · next hrest =>
    cases hs
    have hdrop : (c.extend ext).rest.dropWhile (· != Run.newline) =
        c.rest.dropWhile (· != Run.newline) ++ ext.bytes := by
      rw [extend, List.dropWhile_append, if_neg hrest]
    have hempty : ((c.extend ext).rest.dropWhile (· != Run.newline)).isEmpty = false := by
      rw [hdrop, List.isEmpty_eq_false_iff]
      exact List.append_ne_nil_of_left_ne_nil (mt List.isEmpty_iff.mpr hrest) _
    refine ⟨⟨nofun, h.fresh⟩, ?_⟩
    simp only [Cursor.skipLine, hempty]
    rw [hdrop]
    rfl

end Cursor.BreaksOff

namespace Stream

variable {st next : Stream} {ts : List Token}

theorem skip_extend (ext : Source) (b : Blank) (st : Stream) :
    skip b (st.extend ext) = (skip b st).extend ext := by
  unfold skip extend
  split <;> rfl

theorem scanSymbols_extend (h : st.cursor.BreaksOff) (ext : Source) {start : Site}
    {bytes : List UInt8} (hs : scanSymbols start bytes st = (.tokens ts, next)) :
    next.cursor.BreaksOff ∧
      scanSymbols start bytes (st.extend ext) = (.tokens ts, next.extend ext) := by
  unfold scanSymbols at hs ⊢
  simp only at hs ⊢
  split at hs
  · cases hs
    exact ⟨h, rfl⟩
  · split at hs
    · next c hskip =>
      cases hs
      obtain ⟨hc, hskip'⟩ := h.skipLine ext hskip
      have hskip'' : (st.extend ext).cursor.skipLine = _ := hskip'
      simp only [hskip'']
      exact ⟨hc, rfl⟩
    · cases hs
  · cases hs

/-- Tokens that are read in front of a break are read from a longer source as well. -/
theorem scan_extend (h : st.cursor.BreaksOff) (ext : Source) (hs : st.scan = (.tokens ts, next)) :
    next.cursor.BreaksOff ∧ (st.extend ext).scan = (.tokens ts, next.extend ext) := by
  unfold scan at hs
  split at hs
  · cases hs
  · cases hs
  · next run c hn =>
    obtain ⟨hc, hn'⟩ := h.next ext hn
    have hn'' : (st.extend ext).cursor.next = _ := hn'
    have hskip : skip run.before { st.extend ext with cursor := c.extend ext } = _ :=
      skip_extend ext run.before { st with cursor := c }
    have hcursor : (skip run.before { st with cursor := c }).cursor = c := skip_cursor ..
    unfold scan
    simp only [hn'', hskip]
    simp only at hs
    generalize skip run.before { st with cursor := c } = mid at hs hcursor ⊢
    subst hcursor
    cases hclass : run.cls with
    | word =>
      rw [hclass] at hs
      obtain ⟨hts, rfl⟩ := Prod.mk.inj hs
      exact ⟨hc, congrArg (·, _) hts⟩
    | number =>
      rw [hclass] at hs
      obtain ⟨hts, rfl⟩ := Prod.mk.inj hs
      exact ⟨hc, congrArg (·, _) hts⟩
    | symbol =>
      rw [hclass] at hs
      exact scanSymbols_extend (by exact hc) ext hs

/-- A source that breaks off gives the first tokens of every longer one. -/
theorem yielded_extend (budget : Nat → Budget) (pull : Nat) (h : st.cursor.BreaksOff)
    (ext : Source) :
    yielded (st.items budget pull) <+: yielded ((st.extend ext).items budget pull) := by
  fun_induction items budget pull st with
  | case1 pull st e he => exact List.nil_prefix
  | case2 pull st hb ts next hscan ih =>
    obtain ⟨hnext, hscan'⟩ := scan_extend h ext hscan
    rw [items_of_tokens hb hscan', yielded_map_ok, yielded_map_ok]
    exact (List.prefix_append_right_inj ts).mpr (ih hnext)
  | case3 pull st hb eof next hscan =>
    have hends : st.cursor.EndsWhole := fun hend => by simp [h.fresh] at hend
    have hfrom := from_scan hends
    rw [hscan] at hfrom
    exact absurd hfrom.2 h.broken
  | case4 pull st hb e ts next hscan => exact List.nil_prefix

/-- A flag that is raised at some pull cuts the tokens off. -/
theorem yielded_raised (budget : Nat → Budget) (k pull : Nat) (st : Stream) :
    yielded (st.items (Budget.raised k budget) pull) <+: yielded (st.items budget pull) := by
  fun_induction items (Budget.raised k budget) pull st with
  | case1 pull st e he => exact List.nil_prefix
  | case2 pull st hb ts next hscan ih =>
    obtain ⟨-, hb⟩ := Budget.lt_of_raised hb
    rw [items_of_tokens hb hscan, yielded_map_ok, yielded_map_ok]
    exact (List.prefix_append_right_inj ts).mpr ih
  | case3 pull st hb eof next hscan =>
    obtain ⟨-, hb⟩ := Budget.lt_of_raised hb
    rewrite [items_of_finished hb hscan]
    exact List.prefix_rfl
  | case4 pull st hb e ts next hscan => exact List.nil_prefix

/-- The runs that are read from one stream to another, and their tokens. -/
inductive Reads : Stream → List Token → Stream → Prop
  | refl (st : Stream) : Reads st [] st
  | head {st mid last : Stream} {ts us : List Token} (hs : st.scan = (.tokens ts, mid))
    (h : Reads mid us last) : Reads st (ts ++ us) last

/-- Several tokens are those of a symbol run. -/
theorem symbol_of_scan (hs : st.scan = (.tokens ts, next)) (hts : 1 < ts.length) :
    ∃ run c, st.cursor.next = (.ok (some run), c) ∧ run.cls = .symbol := by
  unfold scan at hs
  split at hs
  · cases hs
  · cases hs
  · next run c hn =>
    refine ⟨run, c, hn, ?_⟩
    cases hclass : run.cls with
    | word =>
      simp only [hclass, scanWord] at hs
      cases hs
      simp at hts
    | number =>
      simp only [hclass, scanNumber] at hs
      split at hs
      · cases hs
        simp at hts
      · cases hs
    | symbol => rfl

/-- Tokens that come out although the flag is raised are the last ones of one symbol run, which was
split before. -/
theorem late_of_raised (budget : Nat → Budget) (k pull : Nat) (st : Stream) :
    pull + (yielded (st.items (Budget.raised k budget) pull)).length ≤ max k pull ∨
      ∃ front mid us next run c, st.Reads front mid ∧ pull + front.length < k ∧
        mid.cursor.next = (.ok (some run), c) ∧ run.cls = .symbol ∧
        mid.scan = (.tokens us, next) ∧
        st.items (Budget.raised k budget) pull =
          (front ++ us).map .ok ++ [Except.error ⟨.exhausted .cancelled, next.here⟩] := by
  fun_induction items (Budget.raised k budget) pull st with
  | case1 pull st e he => exact .inl (Nat.le_max_right _ _)
  | case2 pull st hb ts next hscan ih =>
    obtain ⟨hlt, -⟩ := Budget.lt_of_raised hb
    rcases ih with hle | ⟨front, mid, us, last, run, c, hreads, hfront, hn, hclass, hs, hitems⟩
    · rcases Nat.lt_or_ge k (pull + ts.length) with hlate | hearly
      · obtain ⟨run, c, hn, hclass⟩ := symbol_of_scan hscan (by omega)
        refine .inr ⟨[], st, ts, next, run, c, .refl st, hlt, hn, hclass, hscan, ?_⟩
        rw [items_of_exhausted (Budget.raised_of_le hlate.le), List.nil_append]
      · left
        rw [yielded_map_ok, List.length_append]
        omega
    · right
      refine ⟨ts ++ front, mid, us, last, run, c, .head hscan hreads, ?_, hn, hclass, hs, ?_⟩
      · rw [List.length_append]
        omega
      · rw [hitems]
        simp only [List.map_append, List.append_assoc]
  | case3 pull st hb eof next hscan =>
    obtain ⟨hlt, -⟩ := Budget.lt_of_raised hb
    exact .inl (Nat.le_trans hlt (Nat.le_max_left _ _))
  | case4 pull st hb e ts next hscan => exact .inl (Nat.le_max_right _ _)

end Stream

namespace Source

/-- Answers behind the end or behind a fault are not asked for; otherwise what is read goes on. -/
theorem ofReplies_append (before : List Reply) :
    (∀ later, ofReplies (before ++ later) = ofReplies before) ∨
      ∃ bytes, ∀ later, ofReplies (before ++ later) =
        ⟨bytes ++ (ofReplies later).bytes, (ofReplies later).broken⟩ := by
  induction before with
  | nil => exact .inr ⟨[], fun _ => rfl⟩
  | cons r before ih =>
    cases r with
    | byte b =>
      refine ih.imp (fun h later => ?_) ?_
      · simp only [List.cons_append, ofReplies, h later]
      · rintro ⟨bytes, h⟩
        refine ⟨b :: bytes, fun later => ?_⟩
        simp only [List.cons_append, ofReplies, h later]
    | finish => exact .inl fun _ => rfl
    | interrupted => exact ih
    | failed reason => exact .inl fun _ => rfl

/-- Up to a fault the same is read as without it. -/
theorem ofReplies_failed (before after lost : List Reply) (reason : String) :
    ofReplies (before ++ .failed reason :: lost) = ofReplies (before ++ after) ∨
      ∃ bytes, ofReplies (before ++ .failed reason :: lost) = ⟨bytes, some reason⟩ ∧
        ofReplies (before ++ after) =
          ⟨bytes ++ (ofReplies after).bytes, (ofReplies after).broken⟩ := by
  rcases ofReplies_append before with h | ⟨bytes, h⟩
  · exact .inl ((h _).trans (h _).symm)
  · refine .inr ⟨bytes, ?_, h after⟩
    rw [h, ofReplies, List.append_nil]

theorem ofReplies_interrupted (before after : List Reply) :
    ofReplies (before ++ .interrupted :: after) = ofReplies (before ++ after) := by
  rcases ofReplies_append before with h | ⟨bytes, h⟩
  · exact (h _).trans (h _).symm
  · rw [h, h, ofReplies]

end Source

/-- Disturbances only shorten what a lexer gives. A flag that is raised just before some pull leaves
the first tokens, and those that come out later are the last ones of one symbol run, which was split
before. A fault behind some of the answers leaves the first tokens of whatever the answers would
have been. An interrupted read leaves everything. -/
theorem disturbances_shorten (budget : Nat → Budget) (file : String) :
    (∀ (s : Source) (k : Nat),
      yielded ((Stream.start file s).items (Budget.raised k budget) 0) <+:
          yielded ((Stream.start file s).items budget 0) ∧
        ((yielded ((Stream.start file s).items (Budget.raised k budget) 0)).length ≤ k ∨
          ∃ front mid us next run c, (Stream.start file s).Reads front mid ∧ front.length < k ∧
            mid.cursor.next = (.ok (some run), c) ∧ run.cls = .symbol ∧
            mid.scan = (.tokens us, next) ∧
            (Stream.start file s).items (Budget.raised k budget) 0 =
              (front ++ us).map .ok ++ [.error ⟨.exhausted .cancelled, next.here⟩])) ∧
    (∀ (before after lost : List Reply) (reason : String),
      yielded
          ((Stream.start file (.ofReplies (before ++ .failed reason :: lost))).items budget 0) <+:
        yielded ((Stream.start file (.ofReplies (before ++ after))).items budget 0)) ∧
    ∀ before after : List Reply,
      (Stream.start file (.ofReplies (before ++ .interrupted :: after))).items budget 0 =
        (Stream.start file (.ofReplies (before ++ after))).items budget 0 := by
  refine ⟨fun s k => ⟨Stream.yielded_raised budget k 0 _, ?_⟩, ?_, ?_⟩
  · simpa using Stream.late_of_raised budget k 0 (.start file s)
  · intro before after lost reason
    rcases Source.ofReplies_failed before after lost reason with hsame | ⟨bytes, hcut, hwhole⟩
    · rewrite [hsame]
      exact List.prefix_rfl
    · rw [hcut, hwhole]
      exact Stream.yielded_extend budget 0 ⟨Option.some_ne_none reason, rfl⟩ (.ofReplies after)
  · intro before after
    rw [Source.ofReplies_interrupted]

end ThreeAddress
