import ThreeAddress.Proofs.Conservation
import ThreeAddress.Proofs.Tiling

namespace ThreeAddress

/-- One place of a file is in front of another. -/
def Site.Before (a b : Site) : Prop := a.line < b.line ∨ a.line = b.line ∧ a.column < b.column

theorem Site.Before.ne {a b : Site} (h : a.Before b) : a ≠ b := by
  rintro rfl
  unfold Before at h
  omega

/-- Bytes lead to a later place. -/
theorem Site.before_behind (file : String) (front : List UInt8) {bytes : List UInt8}
    (h : bytes ≠ []) : (behind file front).Before (behind file (front ++ bytes)) := by
  by_cases hn : Run.newline ∈ bytes
  · left
    have hcount : 0 < bytes.count Run.newline := List.count_pos_iff.mpr hn
    rw [behind_append_of_mem file front hn]
    simp only [Blank.of]
    omega
  · right
    have hlength : 0 < bytes.length := List.length_pos_iff.mpr h
    rw [behind_append file front hn]
    simp only [true_and]
    omega

theorem Token.Longest.bytes_ne_nil {t : Token} {after : List UInt8} (h : t.Longest after) :
    t.bytes ≠ [] := by
  have hchars (cs : List Char) (hl : t.lexeme = String.ofList cs) (hcs : cs ≠ []) :
      t.bytes ≠ [] := by
    obtain ⟨c, cs, rfl⟩ := List.exists_cons_of_ne_nil hcs
    have hc := String.utf8EncodeChar_ne_nil (c := c)
    simp [bytes, hl, hc]
  cases h with
  | word hr hk =>
    cases hr with
    | word hf hm =>
      rintro hnil
      simp [hnil] at hf
  | number hr hk hc =>
    cases hr with
    | number hf hm =>
      intro hnil
      simp [hnil] at hf
  | pair hl hk => exact hchars _ hl (List.cons_ne_nil _ _)
  | single hl hk ha => exact hchars _ hl (List.cons_ne_nil _ _)

namespace Tiles

variable {file : String} {s before after : List UInt8} {us : List Token}

/-- Every token stands behind some of the bytes that are read and in front of others. -/
theorem site_of_mem (h : Tiles file s before us after) : ∀ t ∈ us,
    ∃ front rest, t.site = .behind file front ∧ before = front ++ rest ∧ rest ≠ [] := by
  induction h with
  | start => exact List.forall_mem_nil _
  | @blank before after ts b h hb ih =>
    intro t ht
    obtain ⟨front, rest, hs, rfl, hne⟩ := ih t ht
    exact ⟨front, rest ++ [b], hs, List.append_assoc .., by simp⟩
  | comment h ht ha ih =>
    intro t ht
    obtain ⟨front, rest, hs, rfl, hne⟩ := ih t ht
    exact ⟨front, _, hs, List.append_assoc .., by simp⟩
  | @token before after ts t h ht hs ih =>
    intro u hu
    rcases List.mem_append.mp hu with hu | hu
    · obtain ⟨front, rest, hu, rfl, hne⟩ := ih u hu
      exact ⟨front, rest ++ t.bytes, hu, List.append_assoc .., by simp [hne]⟩
    · obtain rfl := List.mem_singleton.mp hu
      exact ⟨before, u.bytes, hs, rfl, ht.bytes_ne_nil⟩

theorem increasing (h : Tiles file s before us after) :
    us.Pairwise fun t u => t.site.Before u.site := by
  induction h with
  | start => exact .nil
  | blank _ _ ih => exact ih
  | comment _ _ _ ih => exact ih
  | token h ht hs ih =>
    apply List.pairwise_append.mpr
    refine ⟨ih, List.pairwise_singleton _ _, ?_⟩
    intro t hmem u hu
    obtain rfl := List.mem_singleton.mp hu
    obtain ⟨front, rest, hf, rfl, hne⟩ := h.site_of_mem t hmem
    rw [hf, hs]
    exact Site.before_behind file front hne

end Tiles

/-- The end is met in a whole source only. -/
def Cursor.EndsWhole (c : Cursor) : Prop := c.atEnd = true → c.broken = none

theorem Cursor.EndsWhole.next {c c' : Cursor} {r : Option Run} (hc : c.EndsWhole)
    (h : c.next = (.ok r, c')) :
    c'.broken = c.broken ∧ c'.EndsWhole ∧ (r = none → c.broken = none) := by
  unfold Cursor.next at h
  split at h
  · next hend =>
    cases h
    exact ⟨rfl, hc, fun _ => hc hend⟩
  · next hopen =>
    generalize Run.skipBlank c.rest = b at h
    obtain ⟨before, input⟩ := b
    cases input with
    | nil =>
      simp only at h
      split at h
      · cases h
      · next hw =>
        cases h
        exact ⟨rfl, fun _ => hw, fun _ => hw⟩
    | cons b more =>
      simp only at h
      split at h
      · cases h
      · split at h
        · split at h
          · cases h
          · next hw =>
            cases h
            exact ⟨rfl, fun _ => hw, nofun⟩
        · cases h
          exact ⟨rfl, fun hend => absurd hend hopen, nofun⟩

theorem Cursor.EndsWhole.skipLine {c c' : Cursor} (hc : c.EndsWhole)
    (h : c.skipLine = (.ok (), c')) : c'.broken = c.broken ∧ c'.EndsWhole := by
  unfold Cursor.skipLine at h
  simp only at h
  split at h
  · split at h
    · cases h
    · next hw =>
      cases h
      exact ⟨rfl, fun _ => hw⟩
  · cases h
    exact ⟨rfl, hc⟩

theorem file_splitSymbols (file : String) (line column : Nat) (cs : List Char) :
    ∀ t ∈ (splitSymbols file line column cs).1, t.site.file = file := by
  fun_induction splitSymbols file line column cs with
  | case1 => simp
  | case2 => simp
  | case3 => simp
  | case4 => simp
  | case5 column c d rest hc k hk ts e he ih =>
    rw [he] at ih
    simpa using ih
  | case6 column c d rest hc hp k hk ts e he ih =>
    rw [he] at ih
    simpa using ih
  | case7 => simp

namespace Stream

@[simp] theorem skip_file (b : Blank) (s : Stream) : (skip b s).file = s.file := by
  unfold skip
  split <;> rfl

/-- What a scan gives carries the label of the file, and the end is met in a whole source only. -/
def Scanned.From (file : String) (broken : Option String) : Scanned × Stream → Prop
  | (.tokens ts, st) => (∀ t ∈ ts, t.site.file = file) ∧ st.file = file ∧
      st.cursor.broken = broken ∧ st.cursor.EndsWhole
  | (.finished eof, _) => eof.site.file = file ∧ broken = none
  | (.failed _ _, _) => True

theorem from_scanSymbols {st : Stream} (start : Site) (bytes : List UInt8)
    (hc : st.cursor.EndsWhole) (hf : start.file = st.file) :
    Scanned.From st.file st.cursor.broken (scanSymbols start bytes st) := by
  have hfile := file_splitSymbols start.file start.line start.column (Text.decodeLossy bytes)
  unfold scanSymbols
  simp only [hf] at hfile ⊢
  split
  · exact ⟨hfile, rfl, rfl, hc⟩
  · split
    · next c hskip =>
      obtain ⟨hbroken, hwhole⟩ := hc.skipLine hskip
      exact ⟨hfile, rfl, hbroken, hwhole⟩
    · trivial
  · trivial

theorem from_scan {st : Stream} (hc : st.cursor.EndsWhole) :
    Scanned.From st.file st.cursor.broken st.scan := by
  unfold scan
  split
  · trivial
  · next c hn =>
    obtain ⟨-, -, hwhole⟩ := hc.next hn
    exact ⟨by simp [here], hwhole rfl⟩
  · next run c hn =>
    obtain ⟨hbroken, hends, -⟩ := hc.next hn
    simp only
    -- Behind the blanks the stream has the label and the cursor that it had.
    have hfile : (skip run.before { st with cursor := c }).file = st.file := skip_file ..
    have hcursor : (skip run.before { st with cursor := c }).cursor = c := skip_cursor ..
    generalize skip run.before { st with cursor := c } = next at hfile hcursor ⊢
    subst hcursor
    rw [← hfile, ← hbroken]
    split
    · exact ⟨by simp [Stream.here], rfl, rfl, hends⟩
    · unfold scanNumber
      simp only
      split
      · exact ⟨by simp [Stream.here], rfl, rfl, hends⟩
      · trivial
    · exact from_scanSymbols next.here run.bytes hends rfl

theorem from_items (budget : Nat → Budget) (pull : Nat) {st : Stream} (hc : st.cursor.EndsWhole)
    {ts : List Token} (h : (st.items budget pull).mapM id = .ok ts) :
    (∀ t ∈ ts, t.site.file = st.file) ∧ st.cursor.broken = none := by
  fun_induction items budget pull st generalizing ts with
  | case1 pull st e he => cases h
  | case2 pull st he us st' hscan ih =>
    have hfrom := from_scan hc
    rw [hscan] at hfrom
    obtain ⟨hfile, hsame, hbroken, hends⟩ := hfrom
    rw [mapM_id_append] at h
    obtain ⟨rest, hrest, rfl⟩ := map_eq_ok.mp h
    obtain ⟨hfiles, hwhole⟩ := ih hends hrest
    rw [hsame] at hfiles
    rw [hbroken] at hwhole
    exact ⟨List.forall_mem_append.mpr ⟨hfile, hfiles⟩, hwhole⟩
  | case3 pull st he eof st' hscan =>
    have hfrom := from_scan hc
    rw [hscan] at hfrom
    cases h
    exact ⟨List.forall_mem_singleton.mpr hfrom.1, hfrom.2⟩
  | case4 pull st he e us st' hscan => cases h

end Stream

/-- The tokens of a source carry its label. Up to the last one, which is the end, each stands behind
the one in front of it. -/
theorem tokenize_sites {budget : Budget} {file : String} {s : Source} {ts : List Token}
    (h : tokenize budget file s = .ok ts) :
    (∀ t ∈ ts, t.site.file = file) ∧ ∃ us eof, ts = us ++ [eof] ∧ eof.kind = .eof ∧
      us.Pairwise fun t u => t.site.Before u.site := by
  have hends : (Stream.start file s).cursor.EndsWhole := by
    intro hend
    cases hend
  obtain ⟨hfile, hwhole⟩ := Stream.from_items _ 0 hends h
  refine ⟨hfile, ?_⟩
  obtain ⟨bytes, broken⟩ := s
  obtain rfl : broken = none := hwhole
  have htiles := Stream.tiles_items budget 0 (Stream.stands_start file bytes) .start
  unfold tokenize at h
  unfold Source.ofBytes at htiles
  rw [h] at htiles
  obtain ⟨us, eof, hts, heof, htiles⟩ := htiles
  exact ⟨us, eof, hts, heof, htiles.increasing⟩

/-- All tokens of a node satisfy a condition, also those that name a construct. -/
inductive Node.All (P : Token → Prop) : Node → Prop
  | leaf {s : State} {t : Token} (h : P t) : All P (.leaf s t)
  | branch {s : State} {t : Token} {cs : List Node} (h : P t) (hs : ∀ c ∈ cs, All P c) :
    All P (.branch s t cs)

namespace Node.All

variable {P : Token → Prop} {n : Node}

theorem token (h : n.All P) : P n.token := by
  cases h with
  | leaf h => exact h
  | branch h _ => exact h

theorem children (h : n.All P) : ∀ c ∈ n.children, c.All P := by
  cases h with
  | leaf _ => exact List.forall_mem_nil _
  | branch _ hs => exact hs

theorem imp {Q : Token → Prop} (hPQ : ∀ t, P t → Q t) (h : n.All P) : n.All Q := by
  induction h with
  | leaf h => exact .leaf (hPQ _ h)
  | branch h _ ih => exact .branch (hPQ _ h) ih

end Node.All

theorem Node.all_of_forall {P : Token → Prop} (h : ∀ t, P t) : ∀ n : Node, n.All P
  | .leaf _ t => .leaf (h t)
  | .branch _ t _ => .branch (h t) fun c _ => c.all_of_forall h

/-- All tokens on the stacks satisfy a condition. -/
structure Builder.All (P : Token → Prop) (b : Builder) : Prop where
  pending : ∀ n ∈ b.pending.nodes, n.All P
  marks : ∀ m ∈ b.marks, P m.token
  blocks : ∀ k ∈ b.blocks, P k.token ∧ ∀ n ∈ k.children, n.All P
  items : ∀ n ∈ b.items, n.All P

namespace Builder.All

variable {P : Token → Prop} {b b' : Builder} {s : State} {t : Token}

theorem push (h : b.All P) {n : Node} (hn : n.All P) :
    Builder.All P { b with pending := b.pending.push n } :=
  { h with pending := List.forall_mem_cons.mpr ⟨hn, h.pending⟩ }

theorem mark (h : b.All P) {m : Mark} (hm : P m.token) :
    Builder.All P { b with marks := m :: b.marks } :=
  { h with marks := List.forall_mem_cons.mpr ⟨hm, h.marks⟩ }

theorem attach (h : b.All P) {n : Node} (hn : n.All P) : (b.attach n).All P := by
  unfold Builder.attach
  split
  · exact { h with items := List.forall_mem_cons.mpr ⟨hn, h.items⟩ }
  · next k ks hk =>
    have hblocks := h.blocks
    rw [hk] at hblocks
    obtain ⟨hfirst, hrest⟩ := List.forall_mem_cons.mp hblocks
    have hchildren := List.forall_mem_cons.mpr ⟨hn, hfirst.2⟩
    exact { h with blocks := List.forall_mem_cons.mpr ⟨⟨hfirst.1, hchildren⟩, hrest⟩ }

/-- A construct that is closed, and what is left below it. -/
theorem close (h : b.All P) {m : Mark} {cs : List Node} (hc : b.close = some (m, cs, b')) :
    P m.token ∧ (∀ c ∈ cs, c.All P) ∧ b'.All P := by
  obtain ⟨hmarks, hblocks, hitems, hpending⟩ := close_eq_some hc
  have hm := h.marks
  have hp := h.pending
  rw [hmarks] at hm
  rw [hpending] at hp
  obtain ⟨hfirst, hrest⟩ := List.forall_mem_cons.mp hm
  obtain ⟨htaken, hbelow⟩ := List.forall_mem_append.mp hp
  refine ⟨hfirst, fun c hmem => htaken c (List.mem_reverse.mpr hmem), hbelow, hrest, ?_, ?_⟩
  · rw [hblocks]
    exact h.blocks
  · rw [hitems]
    exact h.items

theorem enter (h : b.All P) (ht : P t) (he : b.enter s t = some b') : b'.All P := by
  unfold Builder.enter at he
  split at he
  · cases he
    exact h
  · cases he
    exact h.push (.leaf ht)
  · cases he
    exact h.mark ht
  · cases he
    exact Builder.All.push (h.mark ht) (.leaf ht)
  · unfold Builder.wrap at he
    split at he
    · cases he
    · next n ns hn =>
      cases he
      have hp := h.pending
      rw [hn] at hp
      exact h.mark (hp n List.mem_cons_self).token
  · unfold Builder.retag at he
    split at he
    · cases he
    · next m ms hm =>
      cases he
      have hmarks := h.marks
      rw [hm] at hmarks
      obtain ⟨hfirst, hrest⟩ := List.forall_mem_cons.mp hmarks
      exact { h with marks := List.forall_mem_cons.mpr ⟨hfirst, hrest⟩ }
  · obtain ⟨⟨m, cs, below⟩, hc, rfl⟩ := Option.map_eq_some_iff.mp he
    obtain ⟨hm, hcs, hbelow⟩ := h.close hc
    exact hbelow.push (.branch hm hcs)
  · obtain ⟨⟨m, cs, below⟩, hc, rfl⟩ := Option.map_eq_some_iff.mp he
    obtain ⟨hm, hcs, hbelow⟩ := h.close hc
    exact hbelow.attach (.branch hm hcs)
  · obtain ⟨⟨m, cs, below⟩, hc, rfl⟩ := Option.map_eq_some_iff.mp he
    obtain ⟨hm, hcs, hbelow⟩ := h.close hc
    have hchildren : ∀ c ∈ cs.reverse, c.All P := fun c hmem => hcs c (List.mem_reverse.mp hmem)
    exact { hbelow with blocks := List.forall_mem_cons.mpr ⟨⟨hm, hchildren⟩, hbelow.blocks⟩ }
  · unfold Builder.closeBlock at he
    split at he
    · cases he
    · next k ks hk =>
      cases he
      have hblocks := h.blocks
      rw [hk] at hblocks
      obtain ⟨hfirst, hrest⟩ := List.forall_mem_cons.mp hblocks
      have hlower : Builder.All P { b with blocks := ks } := { h with blocks := hrest }
      refine hlower.attach (.branch hfirst.1 fun c hmem => ?_)
      rcases List.mem_cons.mp (List.mem_reverse.mp hmem) with rfl | hmem
      · exact .leaf ht
      · exact hfirst.2 c hmem
  · cases he
    exact { h with items := List.forall_mem_cons.mpr ⟨.leaf ht, h.items⟩ }

end Builder.All

theorem Parser.all_run {P : Token → Prop} {table : TransitionTable} {file : String} {p : Parser}
    {ts : List Token} {tree : Tree} (hp : p.builder.All P) (hts : ∀ t ∈ ts, P t)
    (h : p.run table file ts = .ok tree) : ∀ n ∈ tree.items, n.All P := by
  induction ts generalizing p with
  | nil => cases h
  | cons t ts ih =>
    obtain ⟨ht, hts⟩ := List.forall_mem_cons.mp hts
    obtain ⟨p', hstep, hrest⟩ := run_eq_ok_iff.mp h
    obtain ⟨-, henter, -⟩ := step_eq_ok.mp hstep
    have hp' := hp.enter ht henter
    split at hrest
    · subst hrest
      intro n hn
      exact hp'.items n (List.mem_reverse.mp hn)
    · exact ih hp' hts hrest

/-- The tree of any table has tokens of the list only. -/
theorem all_parse {P : Token → Prop} {table : TransitionTable} {ts : List Token} {tree : Tree}
    (hts : ∀ t ∈ ts, P t) (h : parse table ts = .ok tree) : ∀ n ∈ tree.items, n.All P := by
  have hempty : Builder.All P .empty := by
    constructor <;> exact List.forall_mem_nil _
  exact Parser.all_run hempty hts h

/-- A view gives what satisfies a condition, or blames a token that satisfies another one. -/
def Views {α : Type} (P : Token → Prop) (Q : α → Prop) : Except Malformed α → Prop
  | .ok a => Q a
  | .error m => ∃ t, P t ∧ m.site = t.site

namespace Views

variable {α β : Type} {P : Token → Prop} {Q : α → Prop} {R : β → Prop}

theorem bind {x : Except Malformed α} {f : α → Except Malformed β} (hx : Views P Q x)
    (hf : ∀ a, Q a → Views P R (f a)) : Views P R (x >>= f) := by
  cases x with
  | error m => exact hx
  | ok a => exact hf a hx

theorem map {x : Except Malformed α} {f : α → β} (hx : Views P Q x) (hf : ∀ a, Q a → R (f a)) :
    Views P R (x.map f) := by
  cases x with
  | error m => exact hx
  | ok a => exact hf a hx

theorem mapM {f : β → Except Malformed α} {xs : List β} (hf : ∀ x ∈ xs, Views P Q (f x)) :
    Views P (fun ys => ∀ y ∈ ys, Q y) (xs.mapM f) := by
  induction xs with
  | nil => exact List.forall_mem_nil _
  | cons x xs ih =>
    obtain ⟨hx, hxs⟩ := List.forall_mem_cons.mp hf
    rw [List.mapM_cons]
    refine bind hx fun y hy => bind (ih hxs) fun ys hys => ?_
    exact List.forall_mem_cons.mpr ⟨hy, hys⟩

end Views

section
variable {P : Token → Prop}

theorem Node.views_node {α : Type} {Q : α → Prop} {n : Node} (h : n.All P) :
    Views P Q (.error (.node n)) := ⟨n.token, h.token, rfl⟩

theorem Node.views_leafToken {owner : Node} (h : owner.All P) (want : State) {o : Option Node}
    (ho : ∀ n ∈ o, n.All P) : Views P P (owner.leafToken want o) := by
  unfold Node.leafToken
  split
  · split
    · exact (ho _ rfl).token
    · exact views_node h
  · exact views_node h

/-- The tokens of an expression, from left to right. -/
def Expr.tokens : Expr → List Token
  | .literal t => [t]
  | .name t => [t]
  | .call callee args => callee :: args
  | .binary _ t lhs rhs => lhs.tokens ++ t :: rhs.tokens

/-- The tokens of a statement. -/
def Stmt.tokens : Stmt → List Token
  | .local name type none => [name, type]
  | .local name type (some e) => name :: type :: e.tokens
  | .assign target e => target :: e.tokens
  | .call callee args => callee :: args
  | .ret keyword e => keyword :: e.tokens

namespace Expr

theorem views_ofOperand {owner : Node} (h : owner.All P) {o : Option Node}
    (ho : ∀ n ∈ o, n.All P) : Views P (fun e => ∀ t ∈ e.tokens, P t) (ofOperand owner o) := by
  unfold ofOperand
  split
  · exact Node.views_node h
  · exact List.forall_mem_singleton.mpr (ho _ rfl).token
  · exact List.forall_mem_singleton.mpr (ho _ rfl).token
  · exact Node.views_node (ho _ rfl)
  · next t c args =>
    have hn := ho _ rfl
    have hargs : ∀ a ∈ args,
        Views P P ((Node.branch .callOpen t (c :: args)).leafToken .callArg (some a)) := by
      intro a ha
      apply Node.views_leafToken hn
      rintro n ⟨⟩
      exact hn.children a (List.mem_cons_of_mem c ha)
    refine Views.map (Views.mapM hargs) fun ts hts => ?_
    exact List.forall_mem_cons.mpr ⟨hn.token, hts⟩
  · exact Node.views_node (ho _ rfl)

theorem views_ofTail {owner : Node} (h : owner.All P) {ns : List Node}
    (hns : ∀ n ∈ ns, n.All P) :
    Views P (fun tail => ∀ x ∈ tail, P x.2.1 ∧ ∀ t ∈ x.2.2.tokens, P t) (ofTail owner ns) := by
  fun_induction ofTail owner ns with
  | case1 => exact List.forall_mem_nil _
  | case2 => exact Node.views_node h
  | case3 => exact Node.views_node h
  | case4 t op hop n rest ih =>
    obtain ⟨ht, hns⟩ := List.forall_mem_cons.mp hns
    obtain ⟨hn, hrest⟩ := List.forall_mem_cons.mp hns
    refine Views.bind (views_ofOperand h ?_) fun operand ho =>
      Views.bind (ih hrest) fun tail hs => ?_
    · rintro m ⟨⟩
      exact hn
    · exact List.forall_mem_cons.mpr ⟨⟨ht.token, ho⟩, hs⟩
  | case5 => exact Node.views_node h

theorem mem_tokens_append {op : Operator} {t : Token} {operand e : Expr} {u : Token} :
    u ∈ (append op t operand e).tokens ↔ u ∈ e.tokens ∨ u = t ∨ u ∈ operand.tokens := by
  induction e with
  | literal v => simp [append, tokens]
  | name v => simp [append, tokens]
  | call f args => simp [append, tokens, or_assoc]
  | binary op' t' lhs rhs _ ih =>
    rw [append]
    split
    · simp only [tokens, List.mem_append, List.mem_cons, ih, or_assoc]
    · simp only [tokens, List.mem_append, List.mem_cons]

theorem views_ofNodes {owner : Node} (h : owner.All P) {ns : List Node}
    (hns : ∀ n ∈ ns, n.All P) : Views P (fun e => ∀ t ∈ e.tokens, P t) (ofNodes owner ns) := by
  have hhead : ∀ n ∈ ns.head?, n.All P := fun n hn => hns n (List.mem_of_mem_head? hn)
  have htail : ∀ n ∈ ns.tail, n.All P := fun n hn => hns n (List.mem_of_mem_tail hn)
  rw [ofNodes_eq_extend]
  refine Views.bind (views_ofOperand h hhead) fun first hf => ?_
  refine Views.map (views_ofTail h htail) fun tail hs => ?_
  induction tail generalizing first with
  | nil => exact hf
  | cons x tail ih =>
    obtain ⟨hx, hs⟩ := List.forall_mem_cons.mp hs
    refine ih _ (fun t ht => ?_) hs
    rcases mem_tokens_append.mp ht with ht | rfl | ht
    · exact hf t ht
    · exact hx.1
    · exact hx.2 t ht

end Expr

theorem getElem?_all {ns : List Node} (h : ∀ n ∈ ns, n.All P) (i : Nat) :
    ∀ n ∈ ns[i]?, n.All P := fun n hn => h n (List.mem_of_getElem? hn)

theorem Stmt.views_ofNode {n : Node} (h : n.All P) :
    Views P (fun s => ∀ t ∈ s.tokens, P t) (Stmt.ofNode n) := by
  have hcs := h.children
  have htail : ∀ c ∈ n.children.tail, c.All P := fun c hc => hcs c (List.mem_of_mem_tail hc)
  unfold Stmt.ofNode
  simp only
  split
  · refine Views.bind (Node.views_leafToken h _ (getElem?_all hcs 0)) fun name hname => ?_
    refine Views.bind (Node.views_leafToken h _ (getElem?_all hcs 1)) fun type htype => ?_
    split
    · simpa [Views, Stmt.tokens, pure, Except.pure] using ⟨hname, htype⟩
    · have hrest : ∀ c ∈ n.children.drop 2, c.All P := fun c hc => hcs c (List.mem_of_mem_drop hc)
      refine Views.bind (Expr.views_ofNodes h hrest) fun e he => ?_
      exact List.forall_mem_cons.mpr ⟨hname, List.forall_mem_cons.mpr ⟨htype, he⟩⟩
  · refine Views.bind (Node.views_leafToken h _ (getElem?_all hcs 0)) fun target htarget => ?_
    refine Views.bind (Expr.views_ofNodes h htail) fun e he => ?_
    exact List.forall_mem_cons.mpr ⟨htarget, he⟩
  · refine Views.bind (Node.views_leafToken h _ (getElem?_all hcs 0)) fun callee hcallee => ?_
    have hargs : ∀ a ∈ n.children.tail, Views P P (n.leafToken .callStmtArg (some a)) := by
      intro a ha
      apply Node.views_leafToken h
      rintro c ⟨⟩
      exact htail a ha
    refine Views.bind (Views.mapM hargs) fun args hargs => ?_
    exact List.forall_mem_cons.mpr ⟨hcallee, hargs⟩
  · refine Views.map (Expr.views_ofNodes h hcs) fun e he => ?_
    exact List.forall_mem_cons.mpr ⟨h.token, he⟩
  · exact Node.views_node h

variable (P) in
/-- All tokens of a function's header and body satisfy a condition. -/
structure Function.All (f : Function) : Prop where
  name : P f.name
  params : ∀ q ∈ f.params, P q.name ∧ P q.type
  ret : P f.ret
  body : ∀ n ∈ f.body, n.All P

def Item.All (P : Token → Prop) : Item → Prop
  | .type name target => P name ∧ P target
  | .global name t init => P name ∧ P t ∧ ∀ u ∈ init, P u
  | .func f => f.All P
  | .finish _ => True

theorem Function.views_splitParams {ns : List Node} (h : ∀ n ∈ ns, n.All P) :
    Views P (fun x => (∀ q ∈ x.1, P q.name ∧ P q.type) ∧ ∀ n ∈ x.2, n.All P) (splitParams ns) := by
  fun_induction splitParams ns with
  | case1 t cs rest ih =>
    obtain ⟨hn, hrest⟩ := List.forall_mem_cons.mp h
    have hcs := hn.children
    refine Views.bind (Node.views_leafToken hn _ (getElem?_all hcs 0)) fun name hname => ?_
    refine Views.bind (Node.views_leafToken hn _ (getElem?_all hcs 1)) fun type htype => ?_
    refine Views.bind (ih hrest) fun x hx => ?_
    exact ⟨List.forall_mem_cons.mpr ⟨⟨hname, htype⟩, hx.1⟩, hx.2⟩
  | case2 rest _ => exact ⟨List.forall_mem_nil _, h⟩

theorem Function.views_ofNode {n : Node} (h : n.All P) :
    Views P (Function.All P) (Function.ofNode n) := by
  have hcs := h.children
  have htail : ∀ c ∈ n.children.tail, c.All P := fun c hc => hcs c (List.mem_of_mem_tail hc)
  have hlast : ∀ c ∈ n.children.getLast?, c.All P := fun c hc => hcs c (List.mem_of_getLast? hc)
  unfold Function.ofNode
  refine Views.bind (Node.views_leafToken h _ (getElem?_all hcs 0)) fun name hname => ?_
  refine Views.bind (views_splitParams htail) fun x hx => ?_
  refine Views.bind (Node.views_leafToken h _ (getElem?_all hx.2 0)) fun ret hret => ?_
  refine Views.bind (Node.views_leafToken h _ hlast) fun close _ => ?_
  refine ⟨hname, hx.1, hret, fun c hc => hx.2 c ?_⟩
  exact List.mem_of_mem_tail (List.dropLast_subset _ hc)

theorem Item.views_ofNode {n : Node} (h : n.All P) : Views P (Item.All P) (Item.ofNode n) := by
  have hcs := h.children
  unfold Item.ofNode
  simp only
  split
  · split
    · refine Views.bind (Node.views_leafToken h _ (getElem?_all hcs 0)) fun name hname => ?_
      refine Views.bind (Node.views_leafToken h _ (getElem?_all hcs 1)) fun target htarget => ?_
      exact ⟨hname, htarget⟩
    · exact Node.views_node h
  · split
    · refine Views.bind (Node.views_leafToken h _ (getElem?_all hcs 0)) fun name hname => ?_
      refine Views.bind (Node.views_leafToken h _ (getElem?_all hcs 1)) fun type htype => ?_
      have hinit : Views P (fun init => ∀ u ∈ init, P u)
          (n.children[2]?.mapM fun c => n.leafToken .globalInit (some c)) := by
        have hthird := getElem?_all hcs 2
        cases hc : n.children[2]? with
        | none =>
          rintro u ⟨⟩
        | some c =>
          rw [hc] at hthird
          refine Views.bind (Node.views_leafToken h .globalInit hthird) fun u hu => ?_
          rintro v ⟨⟩
          exact hu
      refine Views.bind hinit fun init hinit => ?_
      exact ⟨hname, htype, hinit⟩
    · exact Node.views_node h
  · exact Views.map (Function.views_ofNode h) fun f hf => hf
  · trivial
  · exact Node.views_node h

end

end ThreeAddress
