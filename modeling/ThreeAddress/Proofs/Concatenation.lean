import ThreeAddress.Proofs.Moving
import ThreeAddress.Proofs.Position

namespace ThreeAddress

variable (m : Site → Site)

namespace Waiting

def move (w : Waiting) : Waiting := ⟨w.nodes.map (Node.move m), w.count, by simp [w.count_eq]⟩

theorem move_push (n : Node) (w : Waiting) : (w.push n).move m = (w.move m).push (n.move m) := rfl

theorem split?_move (start : Nat) (w : Waiting) :
    (w.move m).split? start =
      (w.split? start).map fun x => (x.1.map (Node.move m), x.2.move m) := by
  by_cases h : w.count < start
  · simp [split?, move, h]
  · simp [split?, move, h, List.map_take, List.map_drop]

end Waiting

def Mark.move (k : Mark) : Mark := { k with token := k.token.move m }

def Block.move (k : Block) : Block :=
  { k with token := k.token.move m, children := k.children.map (Node.move m) }

namespace Builder

variable (below : List Node)

/-- The stacks with moved tokens, on declarations that are complete. -/
def carry (b : Builder) : Builder :=
  ⟨b.pending.move m, b.marks.map (Mark.move m), b.blocks.map (Block.move m),
    b.items.map (Node.move m) ++ below⟩

theorem close_carry (b : Builder) :
    (b.carry m below).close =
      b.close.map fun x => (x.1.move m, x.2.1.map (Node.move m), x.2.2.carry m below) := by
  cases hm : b.marks with
  | nil => simp [close, carry, hm]
  | cons k ks =>
    simp only [close, carry, hm, List.map_cons, Mark.move, Waiting.split?_move, Option.map_map]
    rfl

theorem attach_carry (n : Node) (b : Builder) :
    (b.attach n).carry m below = (b.carry m below).attach (n.move m) := by
  cases hk : b.blocks with
  | nil => simp [attach, carry, hk]
  | cons k ks => simp [attach, carry, hk, Block.move]

theorem wrap_carry (s : State) (b : Builder) :
    (b.carry m below).wrap s = (b.wrap s).map (carry m below) := by
  cases hp : b.pending.nodes with
  | nil => simp [wrap, carry, Waiting.move, hp]
  | cons n ns => simp [wrap, carry, Waiting.move, hp, Mark.move]

theorem retag_carry (s : State) (b : Builder) :
    (b.carry m below).retag s = (b.retag s).map (carry m below) := by
  cases hm : b.marks with
  | nil => simp [retag, carry, hm]
  | cons k ks => simp [retag, carry, hm, Mark.move]

theorem closeBlock_carry (s : State) (t : Token) (b : Builder) :
    (b.carry m below).closeBlock s (t.move m) = (b.closeBlock s t).map (carry m below) := by
  cases hk : b.blocks with
  | nil => simp [closeBlock, carry, hk]
  | cons k ks =>
    have hattach := attach_carry m below
      (.branch k.kind k.token (Node.leaf s t :: k.children).reverse) { b with blocks := ks }
    rw [Node.move_branch, List.map_reverse] at hattach
    simp only [closeBlock, hk, Option.map_some, hattach]
    simp [carry, hk, Block.move, Node.move]

theorem fold_carry (b : Builder) : (b.carry m below).fold = b.fold.map (carry m below) := by
  rw [fold, close_carry, fold, Option.map_map, Option.map_map]
  refine congrArg (Option.map · b.close) (funext fun x => ?_)
  simp [carry, Waiting.move_push, Node.move_branch, Mark.move]

theorem reduce_carry (b : Builder) : (b.carry m below).reduce = b.reduce.map (carry m below) := by
  rw [reduce, close_carry, reduce, Option.map_map, Option.map_map]
  refine congrArg (Option.map · b.close) (funext fun x => ?_)
  simp [attach_carry, Node.move_branch, Mark.move]

theorem openBlock_carry (b : Builder) :
    (b.carry m below).openBlock = b.openBlock.map (carry m below) := by
  rw [openBlock, close_carry, openBlock, Option.map_map, Option.map_map]
  refine congrArg (Option.map · b.close) (funext fun x => ?_)
  simp [carry, Mark.move, Block.move]

/-- Entering a state moves all alike. -/
theorem enter_carry (s : State) (t : Token) (b : Builder) :
    (b.carry m below).enter s (t.move m) = (b.enter s t).map (carry m below) := by
  unfold enter
  cases s.action with
  | skip => rfl
  | shift => rfl
  | begin => rfl
  | beginShift => rfl
  | wrap => exact wrap_carry m below s b
  | retag => exact retag_carry m below s b
  | fold => exact fold_carry m below b
  | reduce => exact reduce_carry m below b
  | openBlock => exact openBlock_carry m below b
  | closeBlock => exact closeBlock_carry m below s t b
  | finish => rfl

theorem settled_carry (b : Builder) : (b.carry m below).settled = b.settled := by
  simp [settled, carry, Waiting.move]

end Builder

namespace Parser

variable {m} {below : List Node} {table : TransitionTable} {file : String} {p p' : Parser}
  {t : Token} {ts : List Token} {tree : Tree}

theorem step_eq_ok : p.step table file t = .ok p' ↔
    table.next p.state t.kind = some p'.state ∧ p.builder.enter p'.state t = some p'.builder ∧
      (p'.state = .finished → p'.builder.settled = true) := by
  constructor
  · intro h
    unfold step at h
    dsimp only at h
    split at h
    · cases h
    · next s hs =>
      split at h
      · cases h
      · next b hb =>
        split at h
        · cases h
        · next hsettled =>
          cases h
          exact ⟨hs, hb, by simpa using hsettled⟩
  · rintro ⟨hs, hb, hsettled⟩
    have hopen : ¬(p'.state = .finished ∧ p'.builder.settled = false) := by
      rintro ⟨hf, hn⟩
      cases (hsettled hf).symm.trans hn
    simp only [step, hs, hb, if_neg hopen]

theorem run_eq_ok_iff : p.run table file (t :: ts) = .ok tree ↔
    ∃ p', p.step table file t = .ok p' ∧
      if p'.state = .finished then tree = ⟨file, p'.builder.items.reverse⟩
      else p'.run table file ts = .ok tree := by
  rw [run]
  cases p.step table file t with
  | error e => simp
  | ok p' =>
    simp only [Except.ok.injEq, exists_eq_left']
    split
    · simp [eq_comm]
    · rfl

variable (m below) in
/-- Moved tokens give a moved tree, on what was complete before. -/
theorem run_carry (file' : String) (h : p.run table file ts = .ok tree) :
    (Parser.mk p.state (p.builder.carry m below)).run table file' (ts.map (Token.move m)) =
      .ok ⟨file', below.reverse ++ tree.items.map (Node.move m)⟩ := by
  induction ts generalizing p with
  | nil => cases h
  | cons t ts ih =>
    obtain ⟨p', hstep, hp'⟩ := run_eq_ok_iff.mp h
    obtain ⟨hnext, henter, hsettled⟩ := step_eq_ok.mp hstep
    rw [List.map_cons, run_eq_ok_iff]
    refine ⟨⟨p'.state, p'.builder.carry m below⟩, step_eq_ok.mpr ⟨hnext, ?_, ?_⟩, ?_⟩
    · simp only [Builder.enter_carry, henter, Option.map_some]
    · rw [Builder.settled_carry]
      exact hsettled
    · dsimp only
      split at hp'
      · next hs =>
        rw [if_pos hs, hp']
        simp [Builder.carry]
      · next hs =>
        rw [if_neg hs]
        exact ih hp'

variable (file) in
/-- Tokens that are accepted when they are moved are accepted as they are. -/
theorem exists_run_of_carry {file' : String} {tree' : Tree}
    (h : (Parser.mk p.state (p.builder.carry m below)).run table file' (ts.map (Token.move m)) =
      .ok tree') : ∃ tree, p.run table file ts = .ok tree := by
  induction ts generalizing p with
  | nil => cases h
  | cons t ts ih =>
    rw [List.map_cons] at h
    obtain ⟨⟨s, b'⟩, hstep, hp'⟩ := run_eq_ok_iff.mp h
    obtain ⟨hnext, henter, hsettled⟩ := step_eq_ok.mp hstep
    rw [Builder.enter_carry] at henter
    obtain ⟨b, hb, rfl⟩ := Option.map_eq_some_iff.mp henter
    rw [Builder.settled_carry] at hsettled
    have hfirst : p.step table file t = .ok ⟨s, b⟩ := step_eq_ok.mpr ⟨hnext, hb, hsettled⟩
    dsimp only at hp'
    split at hp'
    · next hs =>
      refine ⟨⟨file, b.items.reverse⟩, run_eq_ok_iff.mpr ⟨⟨s, b⟩, hfirst, ?_⟩⟩
      rw [if_pos hs]
    · next hs =>
      obtain ⟨tree, htree⟩ := ih (p := ⟨s, b⟩) hp'
      refine ⟨tree, run_eq_ok_iff.mpr ⟨⟨s, b⟩, hfirst, ?_⟩⟩
      rwa [if_neg hs]

/-- Only the entries of the table for a state count. -/
theorem run_congr {s s' : State} {b : Builder} (hs : table.next s = table.next s')
    (h : (Parser.mk s b).run table file ts = .ok tree) :
    (Parser.mk s' b).run table file ts = .ok tree := by
  cases ts with
  | nil => cases h
  | cons t ts =>
    obtain ⟨p', hstep, hp'⟩ := run_eq_ok_iff.mp h
    obtain ⟨hnext, hrest⟩ := step_eq_ok.mp hstep
    exact run_eq_ok_iff.mpr ⟨p', step_eq_ok.mpr ⟨hs ▸ hnext, hrest⟩, hp'⟩

end Parser

namespace Grammar

/-- Where a file may end, another declaration may begin. -/
theorem item_of_eof {s s' : State} (h : next s .eof = some s') : next s = item := by
  cases s <;> first | rfl | cases h

end Grammar

theorem Builder.eq_of_settled {b : Builder} (h : b.settled = true) :
    b = ⟨.empty, [], [], b.items⟩ := by
  obtain ⟨⟨nodes, count, hcount⟩, marks, blocks, items⟩ := b
  simp only [settled, Bool.and_eq_true, List.isEmpty_iff] at h
  obtain ⟨⟨rfl, rfl⟩, rfl⟩ := h
  obtain rfl : count = 0 := hcount
  rfl

/-- In front of the end token of an accepted file nothing is open, and the file may go on. -/
theorem Phrase.Position.run_front (p : Position) (us : List Token) (hus : ∀ t ∈ us, t.kind ≠ .eof)
    {eof : Token} (heof : eof.kind = .eof) {file : String} {rest : List Token} {tree : Tree}
    (h : p.parser.run Grammar.table file (us ++ eof :: rest) = .ok tree) :
    ∃ s items, Grammar.next s = Grammar.item ∧ tree.items = items ++ [Node.leaf .finished eof] ∧
      ∀ file ts, p.parser.run Grammar.table file (us ++ ts) =
        (Parser.mk s ⟨.empty, [], [], items.reverse⟩).run Grammar.table file ts := by
  induction us generalizing p with
  | nil =>
    obtain ⟨⟨s, b⟩, hstep, hp'⟩ := Parser.run_eq_ok_iff.mp h
    obtain ⟨hnext, henter, hsettled⟩ := Parser.step_eq_ok.mp hstep
    have hend : Grammar.next p.state .eof = some s := heof ▸ hnext
    obtain rfl : s = .finished := Grammar.next_eof hend
    obtain rfl : p.builder.finish .finished eof = b := Option.some.inj henter
    have hbuilder : p.builder = ⟨.empty, [], [], p.builder.items⟩ :=
      Builder.eq_of_settled (hsettled rfl)
    rw [if_pos rfl] at hp'
    refine ⟨p.state, p.builder.items.reverse, Grammar.item_of_eof hend, ?_, fun file ts => ?_⟩
    · simp [hp', Builder.finish]
    · rw [List.reverse_reverse, ← hbuilder]
      rfl
  | cons t us ih =>
    obtain ⟨ht, hus⟩ := List.forall_mem_cons.mp hus
    obtain ⟨⟨s, b⟩, hstep, -⟩ := Parser.run_eq_ok_iff.mp h
    have hnext : Grammar.next p.state t.kind = some s := (Parser.step_eq_ok.mp hstep).1
    rcases p.step hnext with ⟨p', hr⟩ | ⟨f, -, htokens, -⟩
    · rw [List.cons_append, run_reaches file hnext hr] at h
      obtain ⟨s, items, hs, hitems, hrun⟩ := ih p' hus h
      refine ⟨s, items, hs, hitems, fun file ts => ?_⟩
      rw [List.cons_append, run_reaches file hnext hr, hrun]
    · obtain ⟨-, hlast⟩ := List.append_inj' htokens rfl
      obtain rfl : f.eof.1 = t := List.singleton_inj.mp hlast
      exact absurd f.eof.2 ht

/-- The tokens of one file in front of its end, then those of another: the parser accepts them and
the tree has the declarations of both. -/
theorem parse_append {us rest ts : List Token} (hus : ∀ t ∈ us, t.kind ≠ .eof) {eof : Token}
    (heof : eof.kind = .eof) {tree₁ tree₂ : Tree}
    (h₁ : parse Grammar.table (us ++ eof :: rest) = .ok tree₁)
    (h₂ : parse Grammar.table ts = .ok tree₂) (m₁ m₂ : Site → Site) :
    ∃ items file, tree₁.items.map (Node.move m₁) = items ++ [Node.leaf .finished (eof.move m₁)] ∧
      parse Grammar.table (us.map (Token.move m₁) ++ ts.map (Token.move m₂)) =
        .ok ⟨file, items ++ tree₂.items.map (Node.move m₂)⟩ := by
  generalize hfile : Token.fileOf (us.map (Token.move m₁) ++ ts.map (Token.move m₂)) = file
  have hfirst := Parser.run_carry m₁ [] file h₁
  rw [List.map_append, List.map_cons] at hfirst
  have hus' : ∀ t ∈ us.map (Token.move m₁), t.kind ≠ .eof := by simpa using hus
  have heof' : (eof.move m₁).kind = .eof := heof
  obtain ⟨s, items, hs, hitems, hrun⟩ := Phrase.Position.run_front .start _ hus' heof' hfirst
  have hsecond := Parser.run_carry m₂ items.reverse file h₂
  have hstate : Grammar.next .start = Grammar.next s := hs.symm
  refine ⟨items, file, hitems, ?_⟩
  rw [parse, hfile]
  refine (hrun file _).trans ?_
  have := Parser.run_congr hstate hsecond
  rwa [List.reverse_reverse] at this

end ThreeAddress
