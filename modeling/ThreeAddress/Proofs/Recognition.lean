import ThreeAddress.Proofs.Position
import ThreeAddress.Proofs.Words

namespace ThreeAddress

def Token.kinds (ts : List Token) : List TokenKind := ts.map (·.kind)

namespace Words

/-- What a run of the parser comes to, in terms of the states that the kinds lead through. -/
inductive Outcome (file : String) (s : State) (ts : List Token) : Except SyntaxError Tree → Prop
  | accepted (n : Nat) (tree : Tree) (h : reach s (Token.kinds (ts.take n)) = some .finished) :
    Outcome file s ts (.ok tree)
  | ended (s' : State) (h : reach s (Token.kinds ts) = some s')
    (hopen : ∀ n, reach s (Token.kinds (ts.take n)) ≠ some .finished) :
    Outcome file s ts (.error (.unexpectedEnd file))
  | stopped (i : Nat) (t : Token) (s' : State) (ht : ts[i]? = some t)
    (h : reach s (Token.kinds (ts.take i)) = some s') (hn : Grammar.next s' t.kind = none)
    (hopen : ∀ n, reach s (Token.kinds (ts.take n)) ≠ some .finished) :
    Outcome file s ts
      (.error (.unexpected { t.site with file } t.kind (Grammar.table.expected s')))

variable {file : String} {s s' : State} {t : Token} {ts : List Token}

theorem reach_cons (h : Grammar.next s t.kind = some s') (n : Nat) :
    reach s (Token.kinds ((t :: ts).take (n + 1))) = reach s' (Token.kinds (ts.take n)) := by
  simp [Token.kinds, reach, h]

/-- Reading one more token in front keeps the outcome. -/
theorem Outcome.cons {r : Except SyntaxError Tree} (hs : s ≠ .finished)
    (h : Grammar.next s t.kind = some s') (o : Outcome file s' ts r) :
    Outcome file s (t :: ts) r := by
  have hopen (ho : ∀ n, reach s' (Token.kinds (ts.take n)) ≠ some .finished) (n : Nat) :
      reach s (Token.kinds ((t :: ts).take n)) ≠ some .finished := by
    cases n with
    | zero => simpa [Token.kinds, reach] using hs
    | succ n => exact reach_cons h n ▸ ho n
  cases o with
  | accepted n tree hn => exact .accepted (n + 1) tree ((reach_cons h n).trans hn)
  | ended s'' hr ho =>
    refine .ended s'' ?_ (hopen ho)
    simpa [Token.kinds, reach, h] using hr
  | stopped i t' s'' ht hr hn ho =>
    exact .stopped (i + 1) t' s'' (by simpa using ht) ((reach_cons h i).trans hr) hn (hopen ho)

theorem outcome_run (file : String) (p : Phrase.Position) (ts : List Token) :
    Outcome file p.state ts (p.parser.run Grammar.table file ts) := by
  have hp := p.state_ne_finished
  induction ts generalizing p with
  | nil => exact .ended p.state rfl fun n => by simpa [Token.kinds, reach] using hp
  | cons t ts ih =>
    cases hs : Grammar.next p.state t.kind with
    | none =>
      rw [p.run_none file t ts hs]
      refine .stopped 0 t p.state rfl rfl hs fun n => ?_
      cases n with
      | zero => simpa [Token.kinds, reach] using hp
      | succ n => simp [Token.kinds, reach, hs]
    | some s =>
      rcases p.run_some file t ts hs with ⟨p', rfl, _, hr⟩ | ⟨f, rfl, _, hr⟩
      · rw [hr]
        exact (ih p' p'.state_ne_finished).cons hp hs
      · rw [hr]
        exact .accepted 1 _ (by simp [Token.kinds, reach, hs])

theorem expected_sorted (s : State) :
    (Grammar.table.expected s).Pairwise (Enumerated.index · < Enumerated.index ·) := by
  have hall : TokenKind.all.Pairwise (Enumerated.index · < Enumerated.index ·) := by decide
  exact hall.sublist List.filter_sublist

theorem viable_take {u : List TokenKind} (h : Viable u) (n : Nat) : Viable (u.take n) := by
  obtain ⟨v, hv⟩ := h
  refine ⟨u.drop n ++ v, ?_⟩
  rwa [← List.append_assoc, List.take_append_drop]

theorem not_viable_take {i : Nat} (ht : ts[i]? = some t)
    (h : reach .start (Token.kinds (ts.take i)) = some s) (hn : Grammar.next s t.kind = none) :
    ¬ Viable (Token.kinds (ts.take (i + 1))) := by
  have hk : Token.kinds (ts.take (i + 1)) = Token.kinds (ts.take i) ++ [t.kind] := by
    simp [Token.kinds, List.take_add_one, ht]
  rw [hk, viable_snoc _ _ h, hn]
  simp

end Words

open Words

/-- Accepted is what begins with a word of the grammar. All else ends too early, or is stopped at
the first token behind which no word goes on. -/
theorem parse_recognises (ts : List Token) :
    ((∃ tree, parse Grammar.table ts = .ok tree) ↔
      ∃ n, Token.kinds (ts.take n) ∈ program) ∧
    ((∀ n, Token.kinds (ts.take n) ∉ program) → Viable (Token.kinds ts) →
      parse Grammar.table ts = .error (.unexpectedEnd (Token.fileOf ts))) ∧
    ((∀ n, Token.kinds (ts.take n) ∉ program) → ¬ Viable (Token.kinds ts) →
      ∃ (i : Nat) (t : Token) (expected : List TokenKind), ts[i]? = some t ∧
        (∀ j ≤ i, Viable (Token.kinds (ts.take j))) ∧ ¬ Viable (Token.kinds (ts.take (i + 1))) ∧
        parse Grammar.table ts =
          .error (.unexpected { t.site with file := Token.fileOf ts } t.kind expected) ∧
        (∀ k, k ∈ expected ↔ Viable (Token.kinds (ts.take i) ++ [k])) ∧
        expected.Pairwise (Enumerated.index · < Enumerated.index ·)) ∧
    ∀ site s, parse Grammar.table ts ≠ .error (.inconsistent site s) := by
  have ho := outcome_run (Token.fileOf ts) .start ts
  change Outcome (Token.fileOf ts) .start ts (parse Grammar.table ts) at ho
  generalize parse Grammar.table ts = r at ho
  cases ho with
  | accepted n tree h =>
    have hm : ∃ n, Token.kinds (ts.take n) ∈ program := ⟨n, (mem_program _).mpr h⟩
    refine ⟨⟨fun _ => hm, fun _ => ⟨tree, rfl⟩⟩, ?_, ?_, by simp⟩
    · intro hno
      exact absurd hm (not_exists.mpr hno)
    · intro hno
      exact absurd hm (not_exists.mpr hno)
  | ended s h hopen =>
    have hno (n : Nat) : Token.kinds (ts.take n) ∉ program := fun hm =>
      hopen n ((mem_program _).mp hm)
    have hv : Viable (Token.kinds ts) := (viable_iff _).mpr (by simp [h])
    exact ⟨⟨by simp, fun ⟨n, hm⟩ => absurd hm (hno n)⟩, fun _ _ => rfl,
      fun _ hn => absurd hv hn, by simp⟩
  | stopped i t s ht h hn hopen =>
    have hno (n : Nat) : Token.kinds (ts.take n) ∉ program := fun hm =>
      hopen n ((mem_program _).mp hm)
    have hlast := not_viable_take ht h hn
    have hv : Viable (Token.kinds (ts.take i)) := (viable_iff _).mpr (by simp [h])
    refine ⟨⟨by simp, fun ⟨n, hm⟩ => absurd hm (hno n)⟩, ?_, ?_, by simp⟩
    · intro _ hw
      have := viable_take hw (i + 1)
      rw [Token.kinds, ← List.map_take] at this
      exact absurd this hlast
    · intro _ _
      refine ⟨i, t, Grammar.table.expected s, ht, ?_, hlast, rfl, ?_, expected_sorted s⟩
      · intro j hj
        have := viable_take hv j
        rwa [Token.kinds, ← List.map_take, List.take_take, Nat.min_eq_left hj] at this
      · intro k
        rw [viable_snoc _ _ h]
        exact Grammar.table.mem_expected s k

end ThreeAddress
