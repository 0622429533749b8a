import Mathlib.Algebra.Order.Group.Multiset
import ThreeAddress.Proofs.Concatenation
import ThreeAddress.Token.Stream

namespace ThreeAddress

/-- Whether entering a state with this action keeps the token in a leaf. -/
def Action.records : Action → Bool
  | .shift | .beginShift | .closeBlock | .finish => true
  | _ => false

theorem State.eq_finished_of_action {s : State} (h : s.action = .finish) : s = .finished := by
  cases s <;> first | rfl | cases h

/-- The tokens that are read from a state with the states that they lead to, up to the last one. -/
def Parser.entered (table : TransitionTable) : State → List Token → List (Token × State)
  | _, [] => []
  | s, t :: ts =>
    match table.next s t.kind with
    | none => []
    | some s' => (t, s') :: if s' = .finished then [] else entered table s' ts

/-- The tokens that are read and recorded. -/
def Parser.recorded (table : TransitionTable) (s : State) (ts : List Token) : List Token :=
  ((entered table s ts).filter (·.2.action.records)).map (·.1)

/-- A token that is recorded. -/
def State.kept (s : State) (t : Token) : List Token := if s.action.records then [t] else []

namespace Node

/-- The tokens of the leaves, in no order. -/
def bag (ns : List Node) : Multiset Token := ↑(leavesAll ns)

@[simp] theorem bag_nil : bag [] = 0 := rfl

@[simp] theorem bag_leaf (s : State) (t : Token) (ns : List Node) :
    bag (.leaf s t :: ns) = {t} + bag ns := rfl

@[simp] theorem bag_branch (s : State) (t : Token) (cs ns : List Node) :
    bag (.branch s t cs :: ns) = bag cs + bag ns := by
  rw [bag, leavesAll, leaves, ← Multiset.coe_add]
  rfl

@[simp] theorem bag_append (ns ms : List Node) : bag (ns ++ ms) = bag ns + bag ms := by
  induction ns with
  | nil => simp
  | cons n ns ih =>
    cases n with
    | leaf s t => simp [ih]
    | branch s t cs => simp [ih, add_assoc]

theorem bag_cons (n : Node) (ns : List Node) : bag (n :: ns) = bag [n] + bag ns :=
  bag_append [n] ns

@[simp] theorem bag_reverse (ns : List Node) : bag ns.reverse = bag ns := by
  induction ns with
  | nil => rfl
  | cons n ns ih => rw [List.reverse_cons, bag_append, ih, bag_cons n ns, add_comm]

end Node

namespace Builder

variable {b b' : Builder} {s : State} {t : Token}

/-- The tokens that the stacks hold. -/
def bag (b : Builder) : Multiset Token :=
  Node.bag b.pending.nodes + Node.bag (b.blocks.flatMap (·.children)) + Node.bag b.items

theorem bag_shift (s : State) (t : Token) (b : Builder) : (b.shift s t).bag = {t} + b.bag := by
  simp [bag, shift, add_assoc]

theorem bag_attach (n : Node) (b : Builder) : (b.attach n).bag = Node.bag [n] + b.bag := by
  cases hk : b.blocks with
  | nil =>
    simp only [attach, bag, hk]
    rw [Node.bag_cons n b.items]
    ac_rfl
  | cons k ks =>
    simp only [attach, bag, hk, List.flatMap_cons, Node.bag_append]
    rw [Node.bag_cons n k.children]
    ac_rfl

/-- Closing takes a mark and what was recorded since, and leaves all else. -/
theorem close_eq_some {m : Mark} {cs : List Node} (h : b.close = some (m, cs, b')) :
    b.marks = m :: b'.marks ∧ b'.blocks = b.blocks ∧ b'.items = b.items ∧
      b.pending.nodes = cs.reverse ++ b'.pending.nodes := by
  unfold close at h
  split at h
  · cases h
  · next m' ms hm =>
    obtain ⟨⟨taken, below⟩, hsplit, heq⟩ := Option.map_eq_some_iff.mp h
    cases heq
    exact ⟨hm, rfl, rfl, (Waiting.nodes_of_split? hsplit).1⟩

theorem bag_close {m : Mark} {cs : List Node} (h : b.close = some (m, cs, b')) :
    b.bag = Node.bag cs + b'.bag := by
  obtain ⟨-, hblocks, hitems, hpending⟩ := close_eq_some h
  simp [bag, hblocks, hitems, hpending, add_assoc]

/-- What entering a state can do to the stacks. -/
inductive Enters (b : Builder) (s : State) (t : Token) : Builder → Prop
  | skip (ha : s.action = .skip) : Enters b s t b
  | shift (ha : s.action = .shift) : Enters b s t (b.shift s t)
  | mark (ha : s.action = .begin ∨ s.action = .wrap) (start : Nat) (u : Token) :
    Enters b s t { b with marks := ⟨start, s, u⟩ :: b.marks }
  | beginShift (ha : s.action = .beginShift) : Enters b s t ((b.begin s t).shift s t)
  | retag (ha : s.action = .retag) {m : Mark} {ms : List Mark} (hm : b.marks = m :: ms) :
    Enters b s t { b with marks := { m with kind := s } :: ms }
  | fold (ha : s.action = .fold) {m : Mark} {cs : List Node} {below : Builder}
    (hc : b.close = some (m, cs, below)) :
    Enters b s t { below with pending := below.pending.push (.branch m.kind m.token cs) }
  | reduce (ha : s.action = .reduce) {m : Mark} {cs : List Node} {below : Builder}
    (hc : b.close = some (m, cs, below)) :
    Enters b s t (below.attach (.branch m.kind m.token cs))
  | openBlock (ha : s.action = .openBlock) {m : Mark} {cs : List Node} {below : Builder}
    (hc : b.close = some (m, cs, below)) :
    Enters b s t { below with blocks := ⟨m.kind, m.token, cs.reverse⟩ :: below.blocks }
  | closeBlock (ha : s.action = .closeBlock) {k : Block} {ks : List Block}
    (hk : b.blocks = k :: ks) :
    Enters b s t ({ b with blocks := ks }.attach
      (.branch k.kind k.token (Node.leaf s t :: k.children).reverse))
  | finish (ha : s.action = .finish) : Enters b s t (b.finish s t)

theorem enters (h : b.enter s t = some b') : b.Enters s t b' := by
  unfold enter at h
  cases ha : s.action with
  | skip =>
    simp only [ha, Option.some.injEq] at h
    exact h ▸ .skip ha
  | shift =>
    simp only [ha, Option.some.injEq] at h
    exact h ▸ .shift ha
  | begin =>
    simp only [ha, Option.some.injEq] at h
    exact h ▸ .mark (.inl ha) _ _
  | beginShift =>
    simp only [ha, Option.some.injEq] at h
    exact h ▸ .beginShift ha
  | wrap =>
    simp only [ha, wrap] at h
    split at h
    · cases h
    · cases h
      exact .mark (.inr ha) _ _
  | retag =>
    simp only [ha, retag] at h
    split at h
    · cases h
    · next m ms hm =>
      cases h
      exact .retag ha hm
  | fold =>
    simp only [ha, fold] at h
    obtain ⟨⟨m, cs, below⟩, hc, rfl⟩ := Option.map_eq_some_iff.mp h
    exact .fold ha hc
  | reduce =>
    simp only [ha, reduce] at h
    obtain ⟨⟨m, cs, below⟩, hc, rfl⟩ := Option.map_eq_some_iff.mp h
    exact .reduce ha hc
  | openBlock =>
    simp only [ha, openBlock] at h
    obtain ⟨⟨m, cs, below⟩, hc, rfl⟩ := Option.map_eq_some_iff.mp h
    exact .openBlock ha hc
  | closeBlock =>
    simp only [ha, closeBlock] at h
    split at h
    · cases h
    · next k ks hk =>
      cases h
      exact .closeBlock ha hk
  | finish =>
    simp only [ha, Option.some.injEq] at h
    exact h ▸ .finish ha

/-- A state adds its token to what the stacks hold, if it records one, and only moves the rest. -/
theorem Enters.bag (h : b.Enters s t b') : b'.bag = ↑(s.kept t) + b.bag := by
  have hkept {a : Action} (ha : s.action = a) : s.kept t = if a.records then [t] else [] := by
    rw [State.kept, ha]
  cases h with
  | skip ha => simp [hkept ha, Action.records]
  | shift ha => simpa [hkept ha, Action.records] using bag_shift s t b
  | mark ha start u =>
    rcases ha with ha | ha
    · simp [hkept ha, Action.records, Builder.bag]
    · simp [hkept ha, Action.records, Builder.bag]
  | beginShift ha =>
    have hbegin : (b.begin s t).bag = b.bag := rfl
    simpa [hkept ha, Action.records, hbegin] using bag_shift s t (b.begin s t)
  | retag ha hm => simp [hkept ha, Action.records, Builder.bag]
  | fold ha hc =>
    rw [bag_close hc, hkept ha]
    simp [Action.records, Builder.bag, add_assoc]
  | reduce ha hc =>
    rw [bag_close hc, bag_attach, hkept ha]
    simp [Action.records]
  | openBlock ha hc =>
    rw [bag_close hc, hkept ha]
    simp only [Action.records, Builder.bag, List.flatMap_cons, Node.bag_append, Node.bag_reverse,
      Bool.false_eq_true, if_false, Multiset.coe_nil, zero_add]
    ac_rfl
  | closeBlock ha hk =>
    rw [bag_attach, hkept ha]
    simp only [Action.records, Builder.bag, hk, List.flatMap_cons, Node.bag_append,
      Node.bag_branch, Node.bag_reverse, Node.bag_leaf, Node.bag_nil, if_true,
      Multiset.coe_singleton]
    ac_rfl
  | finish ha =>
    rw [hkept ha]
    simp only [Action.records, Builder.bag, Builder.finish, Node.bag_leaf, if_true,
      Multiset.coe_singleton]
    ac_rfl

/-- Nothing open or complete is of the kind of the last state. -/
structure Unfinished (b : Builder) : Prop where
  marks : ∀ m ∈ b.marks, m.kind ≠ .finished
  blocks : ∀ k ∈ b.blocks, k.kind ≠ .finished
  items : ∀ n ∈ b.items, n.kind ≠ .finished

namespace Unfinished

theorem start : Builder.empty.Unfinished :=
  ⟨List.forall_mem_nil _, List.forall_mem_nil _, List.forall_mem_nil _⟩

theorem attach {n : Node} (h : b.Unfinished) (hn : n.kind ≠ .finished) :
    (b.attach n).Unfinished := by
  cases hk : b.blocks with
  | nil =>
    simp only [Builder.attach, hk]
    exact ⟨h.marks, hk ▸ h.blocks, List.forall_mem_cons.mpr ⟨hn, h.items⟩⟩
  | cons k ks =>
    have hblocks := h.blocks
    rw [hk, List.forall_mem_cons] at hblocks
    simp only [Builder.attach, hk]
    exact ⟨h.marks, List.forall_mem_cons.mpr hblocks, h.items⟩

theorem close {m : Mark} {cs : List Node} (h : b.Unfinished)
    (hclose : b.close = some (m, cs, b')) : m.kind ≠ .finished ∧ b'.Unfinished := by
  obtain ⟨hmarks, hblocks, hitems, -⟩ := close_eq_some hclose
  have hm := h.marks
  rw [hmarks, List.forall_mem_cons] at hm
  exact ⟨hm.1, hm.2, hblocks ▸ h.blocks, hitems ▸ h.items⟩

/-- Only the last state makes a node of its kind. -/
theorem enters (h : b.Unfinished) (hs : s ≠ .finished) (he : b.Enters s t b') :
    b'.Unfinished := by
  have hmarks {start : Nat} {u : Token} :
      ∀ m ∈ ⟨start, s, u⟩ :: b.marks, m.kind ≠ .finished :=
    List.forall_mem_cons.mpr ⟨hs, h.marks⟩
  cases he with
  | skip ha => exact h
  | shift ha => exact ⟨h.marks, h.blocks, h.items⟩
  | mark ha start u => exact ⟨hmarks, h.blocks, h.items⟩
  | beginShift ha => exact ⟨hmarks, h.blocks, h.items⟩
  | @retag ha m ms hm =>
    have hrest := h.marks
    rw [hm, List.forall_mem_cons] at hrest
    exact ⟨List.forall_mem_cons.mpr ⟨hs, hrest.2⟩, h.blocks, h.items⟩
  | fold ha hc =>
    obtain ⟨-, hbelow⟩ := h.close hc
    exact ⟨hbelow.marks, hbelow.blocks, hbelow.items⟩
  | reduce ha hc =>
    obtain ⟨hm, hbelow⟩ := h.close hc
    exact hbelow.attach hm
  | openBlock ha hc =>
    obtain ⟨hm, hbelow⟩ := h.close hc
    exact ⟨hbelow.marks, List.forall_mem_cons.mpr ⟨hm, hbelow.blocks⟩, hbelow.items⟩
  | @closeBlock ha k ks hk =>
    have hblocks := h.blocks
    rw [hk, List.forall_mem_cons] at hblocks
    have hbelow : Unfinished { b with blocks := ks } := ⟨h.marks, hblocks.2, h.items⟩
    exact hbelow.attach hblocks.1
  | finish ha => exact absurd (State.eq_finished_of_action ha) hs

end Unfinished

end Builder

namespace Parser

variable {table : TransitionTable} {file : String} {p p' : Parser} {t : Token} {ts : List Token}
  {tree : Tree}

/-- What is recorded from a state on begins with the token that is read there. -/
theorem recorded_cons {s s' : State} (h : table.next s t.kind = some s') :
    recorded table s (t :: ts) =
      s'.kept t ++ if s' = .finished then [] else recorded table s' ts := by
  simp only [recorded, entered, h, State.kept]
  by_cases hs : s' = .finished
  · simp [hs, List.filter_cons]
    split <;> rfl
  · simp [hs, List.filter_cons]
    split <;> rfl

/-- A run that ends in a tree puts what the stacks hold and what it records into the leaves. -/
theorem run_conserves (hb : p.builder.Unfinished) (h : p.run table file ts = .ok tree) :
    ∃ decls eof, tree.items = decls ++ [Node.leaf .finished eof] ∧
      (∀ n ∈ decls, n.kind ≠ .finished) ∧
      Node.bag tree.items = ↑(recorded table p.state ts) + p.builder.bag := by
  induction ts generalizing p with
  | nil => cases h
  | cons t ts ih =>
    obtain ⟨p', hstep, hp'⟩ := run_eq_ok_iff.mp h
    obtain ⟨hnext, henter, hsettled⟩ := step_eq_ok.mp hstep
    have hbag := (Builder.enters henter).bag
    rw [recorded_cons hnext]
    by_cases hs : p'.state = .finished
    · rw [if_pos hs] at hp'
      have hlast : p.builder.finish .finished t = p'.builder := by
        rw [hs] at henter
        exact Option.some.inj henter
      have hheld : Node.bag tree.items = p'.builder.bag := by
        rw [Builder.eq_of_settled (hsettled hs), hp']
        simp [Builder.bag, Waiting.empty]
      refine ⟨p.builder.items.reverse, t, ?_, ?_, ?_⟩
      · rw [hp', ← hlast]
        exact List.reverse_cons
      · intro n hn
        exact hb.items n (List.mem_reverse.mp hn)
      · rw [hheld, hbag, if_pos hs, List.append_nil]
    · rw [if_neg hs] at hp'
      obtain ⟨decls, eof, hitems, hdecls, hrest⟩ := ih (hb.enters hs (Builder.enters henter)) hp'
      refine ⟨decls, eof, hitems, hdecls, ?_⟩
      rw [hrest, hbag, if_neg hs, ← Multiset.coe_add]
      ac_rfl

end Parser

/-- Whatever the table, an accepted tree ends with its only leaf of the last state at the top, and
its leaves hold the tokens that were read into recording states, each as often as it was read. -/
theorem parse_conserves_recorded {table : TransitionTable} {ts : List Token} {tree : Tree}
    (h : parse table ts = .ok tree) :
    ∃ decls eof, tree.items = decls ++ [.leaf .finished eof] ∧
      (∀ n ∈ decls, n.kind ≠ .finished) ∧
      (↑(Node.leavesAll tree.items) : Multiset Token) =
        ↑(((Parser.entered table .start ts).filter (·.2.action.records)).map (·.1)) := by
  obtain ⟨decls, eof, hitems, hdecls, hbag⟩ := Parser.run_conserves Builder.Unfinished.start h
  exact ⟨decls, eof, hitems, hdecls, hbag.trans (add_zero _)⟩

/-- A table opens two blocks inside one name and closes a construct that began in front of them:
the leaves are all there, in another order. -/
theorem parse_conserves_recorded_crossing_blocks :
    let table : TransitionTable := ⟨fun _ k =>
      match k with
      | .ident => some .stmtName
      | .number => some .operand
      | .lparen => some .callOpen
      | .lbrace => some .bodyOpen
      | .rbrace => some .bodyClose
      | .semi => some .stmtEnd
      | .eof => some .finished
      | _ => none⟩
    ∃ ts tree, tokenize .unlimited "a" (.ofBytes "a b ( 1 { { ; } }".toUTF8.toList) = .ok ts ∧
      parse table ts = .ok tree ∧
      (Node.leavesAll tree.items).map (·.lexeme) = ["b", "1", "a", "\x7d", "\x7d", ""] ∧
      (↑(Node.leavesAll tree.items) : Multiset Token) =
        ↑(((Parser.entered table .start ts).filter (·.2.action.records)).map (·.1)) := by
  intro table
  have hrun : ((tokenize .unlimited "a"
      (.ofBytes "a b ( 1 { { ; } }".toUTF8.toList)).toOption.bind fun ts =>
        (parse table ts).toOption.map fun tree =>
          (Node.leavesAll tree.items).map (·.lexeme)) =
            some ["b", "1", "a", "\x7d", "\x7d", ""] := by
    decide +kernel
  obtain ⟨ts, hts, hrun⟩ := Option.bind_eq_some_iff.mp hrun
  obtain ⟨tree, htree, hleaves⟩ := Option.map_eq_some_iff.mp hrun
  have htree := toOption_eq_some.mp htree
  obtain ⟨-, -, -, -, hbag⟩ := parse_conserves_recorded htree
  exact ⟨ts, tree, toOption_eq_some.mp hts, htree, hleaves, hbag⟩

end ThreeAddress
