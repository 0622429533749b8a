import ThreeAddress.Proofs.Climbing
import ThreeAddress.Proofs.Program
import ThreeAddress.Proofs.Results

namespace ThreeAddress

/-- The token at another place. -/
def Token.move (m : Site → Site) (t : Token) : Token := { t with site := m t.site }

@[simp] theorem Token.kind_move (m : Site → Site) (t : Token) : (t.move m).kind = t.kind := rfl

@[simp] theorem Token.lexeme_move (m : Site → Site) (t : Token) : (t.move m).lexeme = t.lexeme := rfl

namespace Node

mutual
def move (m : Site → Site) : Node → Node
  | .leaf k t => .leaf k (t.move m)
  | .branch k t cs => .branch k (t.move m) (moveAll m cs)

def moveAll (m : Site → Site) : List Node → List Node
  | [] => []
  | n :: ns => move m n :: moveAll m ns
end

variable (m : Site → Site)

theorem moveAll_eq (ns : List Node) : moveAll m ns = ns.map (move m) := by
  induction ns with
  | nil => rfl
  | cons n ns ih => rw [moveAll, ih, List.map_cons]

theorem move_branch (k : State) (t : Token) (cs : List Node) :
    (branch k t cs).move m = branch k (t.move m) (cs.map (move m)) := by
  rw [move, moveAll_eq]

@[simp] theorem kind_move (n : Node) : (n.move m).kind = n.kind := by
  cases n <;> rfl

@[simp] theorem token_move (n : Node) : (n.move m).token = n.token.move m := by
  cases n <;> rfl

@[simp] theorem children_move (n : Node) : (n.move m).children = n.children.map (move m) := by
  cases n with
  | leaf k t => rfl
  | branch k t cs => rw [move_branch]; rfl

end Node

def Expr.move (m : Site → Site) : Expr → Expr
  | .literal t => .literal (t.move m)
  | .name t => .name (t.move m)
  | .call f args => .call (f.move m) (args.map (Token.move m))
  | .binary op t lhs rhs => .binary op (t.move m) (lhs.move m) (rhs.move m)

def Stmt.move (m : Site → Site) : Stmt → Stmt
  | .local name type init => .local (name.move m) (type.move m) (init.map (Expr.move m))
  | .assign target e => .assign (target.move m) (e.move m)
  | .call f args => .call (f.move m) (args.map (Token.move m))
  | .ret keyword e => .ret (keyword.move m) (e.move m)

def Param.move (m : Site → Site) (q : Param) : Param := ⟨q.name.move m, q.type.move m⟩

def Function.move (m : Site → Site) (f : Function) : Function :=
  ⟨f.name.move m, f.params.map (Param.move m), f.ret.move m, f.body.map (Node.move m),
    f.close.move m⟩

def Item.move (m : Site → Site) : Item → Item
  | .type name target => .type (name.move m) (target.move m)
  | .global name ty init => .global (name.move m) (ty.move m) (init.map (Token.move m))
  | .func f => .func (f.move m)
  | .finish eof => .finish (eof.move m)

def Routine.move (m : Site → Site) (r : Routine) : Routine :=
  ⟨r.name.move m, r.params.map (Param.move m), r.ret.move m, r.body.map (Stmt.move m)⟩

def Decl.move (m : Site → Site) : Decl → Decl
  | .alias name target => .alias (name.move m) (target.move m)
  | .global name type init => .global (name.move m) (type.move m) (init.map (Token.move m))
  | .routine r => .routine (r.move m)

variable {m : Site → Site}

namespace Node

theorem leafToken_move {owner : Node} {want : State} {o : Option Node} {t : Token}
    (h : owner.leafToken want o = .ok t) :
    (owner.move m).leafToken want (o.map (move m)) = .ok (t.move m) := by
  cases o with
  | none => cases h
  | some n =>
    cases n with
    | leaf k u =>
      rw [leafToken] at h
      split at h
      · next hk =>
        cases h
        simp [leafToken, move, hk]
      · cases h
    | branch k u cs => cases h

theorem mapM_leafToken_move {owner : Node} {want : State} {ns : List Node} {ts : List Token}
    (h : (ns.mapM fun n => owner.leafToken want (some n)) = .ok ts) :
    ((ns.map (move m)).mapM fun n => (owner.move m).leafToken want (some n)) =
      .ok (ts.map (Token.move m)) := by
  have hleaf (n : Node) (t : Token) (hn : owner.leafToken want (some n) = .ok t) :
      (owner.move m).leafToken want (some (n.move m)) = .ok (t.move m) := leafToken_move hn
  exact mapM_map_ok (g := fun n => (owner.move m).leafToken want (some n)) (a := move m) hleaf h

end Node

namespace Expr

theorem ofOperand_move {owner : Node} {o : Option Node} {e : Expr} (h : ofOperand owner o = .ok e) :
    ofOperand (owner.move m) (o.map (Node.move m)) = .ok (e.move m) := by
  unfold ofOperand at h
  split at h
  · cases h
  · cases h
    rfl
  · cases h
    rfl
  · cases h
  · next t n args =>
    obtain ⟨ts, hts, rfl⟩ := map_eq_ok.mp h
    have hargs := Node.mapM_leafToken_move (m := m) hts
    simp only [Node.move_branch, List.map_cons] at hargs
    simp only [Option.map_some, Node.move_branch, List.map_cons, ofOperand, hargs]
    rfl
  · cases h

theorem ofTail_move {owner : Node} {ns : List Node} {tail : List (Operator × Token × Expr)}
    (h : ofTail owner ns = .ok tail) :
    ofTail (owner.move m) (ns.map (Node.move m)) =
      .ok (tail.map fun x => (x.1, x.2.1.move m, x.2.2.move m)) := by
  fun_induction ofTail owner ns generalizing tail with
  | case1 => cases h; rfl
  | case2 t rest hop => cases h
  | case3 t op hop => cases h
  | case4 t op hop n rest ih =>
    obtain ⟨e, he, h⟩ := bind_eq_ok.mp h
    obtain ⟨es, hes, h⟩ := bind_eq_ok.mp h
    cases h
    have he' := ofOperand_move (m := m) he
    simp only [Option.map_some] at he'
    simp only [List.map_cons, Node.move, ofTail, Token.kind_move, hop, he', ih hes]
    rfl
  | case5 n rest hn => cases h

theorem append_move (op : Operator) (t : Token) (x e : Expr) :
    (append op t x e).move m = append op (t.move m) (x.move m) (e.move m) := by
  induction e with
  | binary op' t' lhs rhs _ ih =>
    simp only [append, move]
    split
    · rw [move, ih]
    · rfl
  | _ => rfl

theorem foldl_append_move (tail : List (Operator × Token × Expr)) (e : Expr) :
    (tail.foldl (fun e x => append x.1 x.2.1 x.2.2 e) e).move m =
      (tail.map fun x => (x.1, x.2.1.move m, x.2.2.move m)).foldl
        (fun e x => append x.1 x.2.1 x.2.2 e) (e.move m) := by
  induction tail generalizing e with
  | nil => rfl
  | cons x tail ih => rw [List.foldl_cons, ih, append_move, List.map_cons, List.foldl_cons]

theorem ofNodes_move {owner : Node} {ns : List Node} {e : Expr} (h : ofNodes owner ns = .ok e) :
    ofNodes (owner.move m) (ns.map (Node.move m)) = .ok (e.move m) := by
  rw [ofNodes_eq_extend] at h
  obtain ⟨first, hfirst, h⟩ := bind_eq_ok.mp h
  obtain ⟨tail, htail, rfl⟩ := map_eq_ok.mp h
  have hfirst' := ofOperand_move (m := m) hfirst
  have htail' := ofTail_move (m := m) htail
  rw [ofNodes_eq_extend, List.head?_map, ← List.map_tail, hfirst', foldl_append_move]
  simp only [Except.bind, extend, htail']
  rfl

end Expr

theorem Stmt.ofNode_move {n : Node} {s : Stmt} (h : Stmt.ofNode n = .ok s) :
    Stmt.ofNode (n.move m) = .ok (s.move m) := by
  unfold Stmt.ofNode at h ⊢
  simp only [Node.kind_move, Node.children_move, List.getElem?_map, Node.token_move,
    ← List.map_tail, ← List.map_drop]
  split at h
  · obtain ⟨name, hname, h⟩ := bind_eq_ok.mp h
    obtain ⟨ty, hty, h⟩ := bind_eq_ok.mp h
    rw [Node.leafToken_move hname, Node.leafToken_move hty]
    cases hrest : n.children.drop 2 with
    | nil =>
      rw [hrest] at h
      cases h
      rfl
    | cons c cs =>
      rw [hrest] at h
      obtain ⟨e, he, h⟩ := bind_eq_ok.mp h
      cases h
      have he' := Expr.ofNodes_move (m := m) he
      rw [List.map_cons] at he' ⊢
      simp only [bind, Except.bind, he']
      rfl
  · obtain ⟨target, htarget, h⟩ := bind_eq_ok.mp h
    obtain ⟨e, he, h⟩ := bind_eq_ok.mp h
    cases h
    rw [Node.leafToken_move htarget, Expr.ofNodes_move he]
    rfl
  · obtain ⟨callee, hcallee, h⟩ := bind_eq_ok.mp h
    obtain ⟨args, hargs, h⟩ := bind_eq_ok.mp h
    cases h
    rw [Node.leafToken_move hcallee, Node.mapM_leafToken_move hargs]
    rfl
  · obtain ⟨e, he, rfl⟩ := map_eq_ok.mp h
    rw [Expr.ofNodes_move he]
    rfl
  · cases h

theorem Function.splitParams_move {ns rest : List Node} {params : List Param}
    (h : splitParams ns = .ok (params, rest)) :
    splitParams (ns.map (Node.move m)) = .ok (params.map (Param.move m), rest.map (Node.move m)) := by
  fun_induction splitParams ns generalizing params rest with
  | case1 t cs ns ih =>
    obtain ⟨name, hname, h⟩ := bind_eq_ok.mp h
    obtain ⟨ty, hty, h⟩ := bind_eq_ok.mp h
    obtain ⟨⟨qs, ns'⟩, hqs, h⟩ := bind_eq_ok.mp h
    cases h
    have hname' := Node.leafToken_move (m := m) hname
    have hty' := Node.leafToken_move (m := m) hty
    rw [Node.move_branch, ← List.getElem?_map] at hname' hty'
    rw [List.map_cons, Node.move_branch, splitParams, hname', hty', ih hqs]
    rfl
  | case2 ns hns =>
    cases h
    have hmoved : ∀ t cs ns', ns.map (Node.move m) = .branch .paramName t cs :: ns' → False := by
      intro t cs ns' heq
      obtain ⟨n, ns, rfl, hn, -⟩ := List.map_eq_cons_iff.mp heq
      cases n with
      | leaf k u => cases hn
      | branch k u ds =>
        rw [Node.move_branch] at hn
        cases hn
        exact hns u ds ns rfl
    rw [splitParams]
    · rfl
    · exact hmoved

theorem Function.ofNode_move {n : Node} {f : Function} (h : Function.ofNode n = .ok f) :
    Function.ofNode (n.move m) = .ok (f.move m) := by
  obtain ⟨name, hname, h⟩ := bind_eq_ok.mp h
  obtain ⟨⟨params, rest⟩, hparams, h⟩ := bind_eq_ok.mp h
  obtain ⟨ret, hret, h⟩ := bind_eq_ok.mp h
  obtain ⟨close, hclose, h⟩ := bind_eq_ok.mp h
  cases h
  have hname' := Node.leafToken_move (m := m) hname
  have hret' := Node.leafToken_move (m := m) hret
  have hclose' := Node.leafToken_move (m := m) hclose
  rw [← List.getElem?_map, ← Node.children_move] at hname'
  rw [← List.getElem?_map] at hret'
  rw [← List.getLast?_map, ← Node.children_move] at hclose'
  have hparams' := Function.splitParams_move (m := m) hparams
  rw [List.map_tail, ← Node.children_move] at hparams'
  rw [Function.ofNode, hname', hparams']
  simp only [bind, Except.bind, hret', hclose', Function.move]
  rw [← List.map_tail, ← List.map_dropLast]
  rfl

theorem Item.ofNode_move {n : Node} {i : Item} (h : Item.ofNode n = .ok i) :
    Item.ofNode (n.move m) = .ok (i.move m) := by
  unfold Item.ofNode at h ⊢
  simp only [Node.kind_move, Node.children_move, List.getElem?_map, Node.token_move,
    List.length_map]
  split at h
  · dsimp only at h
    split at h
    · next hlength =>
      obtain ⟨name, hname, h⟩ := bind_eq_ok.mp h
      obtain ⟨target, htarget, h⟩ := bind_eq_ok.mp h
      cases h
      rw [if_pos hlength, Node.leafToken_move hname, Node.leafToken_move htarget]
      rfl
    · cases h
  · dsimp only at h
    split at h
    · next hlength =>
      obtain ⟨name, hname, h⟩ := bind_eq_ok.mp h
      obtain ⟨ty, hty, h⟩ := bind_eq_ok.mp h
      obtain ⟨init, hinit, h⟩ := bind_eq_ok.mp h
      cases h
      rw [if_pos hlength, Node.leafToken_move hname, Node.leafToken_move hty]
      cases hc : n.children[2]? with
      | none =>
        rw [hc] at hinit
        cases hinit
        rfl
      | some c =>
        rw [hc, Option.mapM_some] at hinit
        obtain ⟨t, ht, rfl⟩ := map_eq_ok.mp hinit
        have ht' := Node.leafToken_move (m := m) ht
        rw [Option.map_some] at ht'
        simp only [bind, Except.bind, Option.map_some, Option.mapM_some, ht']
        rfl
    · cases h
  · obtain ⟨f, hf, rfl⟩ := map_eq_ok.mp h
    rw [Function.ofNode_move hf]
    rfl
  · cases h
    rfl
  · cases h

theorem Decl.ofNode_move {n : Node} {d : Decl} (h : Decl.ofNode n = .ok d) :
    Decl.ofNode (n.move m) = .ok (d.move m) := by
  obtain ⟨i, hi, h⟩ := bind_eq_ok.mp h
  rw [Decl.ofNode, Item.ofNode_move hi]
  cases i with
  | type name target =>
    cases h
    rfl
  | «global» name ty init =>
    cases h
    rfl
  | func f =>
    obtain ⟨r, hr, h⟩ := bind_eq_ok.mp h
    cases h
    obtain ⟨body, hbody, h⟩ := bind_eq_ok.mp hr
    cases h
    have hbody' := mapM_map_ok (fun n s hs => Stmt.ofNode_move (m := m) (n := n) hs) hbody
    simp only [bind, Except.bind, Item.move, Function.routine, Function.move, hbody']
    rfl
  | finish eof => cases h

/-- The declarations of moved nodes. -/
theorem Decl.mapM_ofNode_move {ns : List Node} {p : Program} (h : ns.mapM ofNode = .ok p) :
    (ns.map (Node.move m)).mapM ofNode = .ok (p.map (move m)) :=
  mapM_map_ok (fun _ _ hd => ofNode_move hd) h

end ThreeAddress
