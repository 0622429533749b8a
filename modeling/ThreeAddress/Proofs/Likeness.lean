import ThreeAddress.Proofs.Moving

namespace ThreeAddress

/-- One place for all tokens. -/
def Site.nowhere (_ : Site) : Site := ⟨"", 0, 0⟩

/-- Equal but for the place. -/
def Token.Like (t u : Token) : Prop := t.move .nowhere = u.move .nowhere

namespace Token

variable {t u : Token}

theorem like_iff : t.Like u ↔ t.kind = u.kind ∧ t.lexeme = u.lexeme := by
  simp [Like, move, Site.nowhere]

theorem Like.kind (h : t.Like u) : t.kind = u.kind := (like_iff.mp h).1

theorem Like.lexeme (h : t.Like u) : t.lexeme = u.lexeme := (like_iff.mp h).2

theorem Like.symm (h : t.Like u) : u.Like t := Eq.symm h

theorem exists_like {ts us : List Token} (h : ts.map (move .nowhere) = us.map (move .nowhere))
    (ht : t ∈ ts) : ∃ u ∈ us, t.Like u := by
  have hmem : t.move .nowhere ∈ us.map (move .nowhere) := h ▸ List.mem_map_of_mem ht
  obtain ⟨u, hu, heq⟩ := List.mem_map.mp hmem
  exact ⟨u, hu, heq.symm⟩

theorem Like.ofLiteral? (h : t.Like u) : Ty.ofLiteral? t = Ty.ofLiteral? u := by
  rw [Ty.ofLiteral?, h.kind, h.lexeme, Ty.ofLiteral?]

theorem Like.inRange (h : t.Like u) (ht : t.InRange) : u.InRange := by
  rw [InRange, ← h.kind, ← h.lexeme]
  exact ht

end Token

section Parts
variable (m : Site → Site)

theorem Expr.move_nowhere (e : Expr) : (e.move m).move .nowhere = e.move .nowhere := by
  induction e with
  | call f args =>
    simp only [move, List.map_map]
    rfl
  | binary op t lhs rhs hl hr =>
    simp only [move, hl, hr]
    rfl
  | _ => rfl

theorem Stmt.move_nowhere (s : Stmt) : (s.move m).move .nowhere = s.move .nowhere := by
  cases s with
  | «local» name type init =>
    cases init with
    | none => rfl
    | some e =>
      simp only [move, Option.map_some, Expr.move_nowhere]
      rfl
  | assign target e =>
    simp only [move, Expr.move_nowhere]
    rfl
  | call f args =>
    simp only [move, List.map_map]
    rfl
  | ret keyword e =>
    simp only [move, Expr.move_nowhere]
    rfl

theorem Expr.values_move (e : Expr) : (e.move m).values = e.values.map (Token.move m) := by
  induction e with
  | binary op t lhs rhs hl hr => simp [move, values, hl, hr]
  | _ => rfl

theorem Stmt.values_move (s : Stmt) : (s.move m).values = s.values.map (Token.move m) := by
  cases s with
  | «local» name type init =>
    cases init with
    | none => rfl
    | some e => exact e.values_move m
  | assign target e => exact e.values_move m
  | call f args => rfl
  | ret keyword e => exact e.values_move m

theorem Stmt.declared_move (ss : List Stmt) :
    (ss.map (Stmt.move m)).flatMap Stmt.declared =
      (ss.flatMap Stmt.declared).map (Prod.map (Token.move m) (Token.move m)) := by
  have hs (s : Stmt) :
      (s.move m).declared = s.declared.map (Prod.map (Token.move m) (Token.move m)) := by
    cases s <;> rfl
  simp [List.flatMap_map, List.map_flatMap, hs]

theorem Routine.bindings_move (r : Routine) :
    (r.move m).bindings = r.bindings.map (Prod.map (Token.move m) (Token.move m)) := by
  simp [bindings, move, Param.move, Stmt.declared_move, Function.comp_def]

/-- Parameters and locals of functions that are alike have the same names. -/
theorem Routine.lexemes_of_like {r r' : Routine} (h : r.move .nowhere = r'.move .nowhere) :
    r.bindings.map (·.1.lexeme) = r'.bindings.map (·.1.lexeme) := by
  have hlexemes (r : Routine) :
      (r.move .nowhere).bindings.map (·.1.lexeme) = r.bindings.map (·.1.lexeme) := by
    simp [bindings_move]
  rw [← hlexemes r, h, hlexemes r']

namespace Decl

theorem name_move (d : Decl) : (d.move m).name = d.name.move m := by
  cases d <;> rfl

theorem types_move (d : Decl) : (d.move m).types = d.types.map (Token.move m) := by
  cases d with
  | routine r =>
    simp only [move, types, Routine.bindings_move, List.map_cons, List.map_map]
    rfl
  | _ => rfl

theorem values_move (d : Decl) : (d.move m).values = d.values.map (Token.move m) := by
  cases d with
  | «alias» name target => rfl
  | «global» name type init => cases init <;> rfl
  | routine r =>
    simp [move, values, Routine.move, List.flatMap_map, List.map_flatMap, Stmt.values_move]

theorem move_nowhere (d : Decl) : (d.move m).move .nowhere = d.move .nowhere := by
  cases d with
  | «alias» name target => rfl
  | «global» name type init => cases init <;> rfl
  | routine r =>
    simp only [move, Routine.move, List.map_map, Function.comp_def, Stmt.move_nowhere]
    rfl

end Decl

end Parts

namespace Program

/-- Declaration by declaration equal but for places. -/
def Alike (p q : Program) : Prop := p.map (Decl.move .nowhere) = q.map (Decl.move .nowhere)

theorem Alike.symm {p q : Program} (h : p.Alike q) : q.Alike p := Eq.symm h

theorem Alike.append {p p' q q' : Program} (hp : p.Alike p') (hq : q.Alike q') :
    Alike (p ++ q) (p' ++ q') := by
  rw [Alike, List.map_append, List.map_append]
  exact congrArg₂ _ hp hq

theorem alike_move (m : Site → Site) (p : Program) : p.Alike (p.map (Decl.move m)) := by
  simp [Alike, Decl.move_nowhere]

/-- Every declaration has its like in another program. -/
def Within (p q : Program) : Prop := ∀ d ∈ p, ∃ d' ∈ q, d.move .nowhere = d'.move .nowhere

theorem Alike.within {p q : Program} (h : p.Alike q) : p.Within q := by
  intro d hd
  have hmem : d.move .nowhere ∈ q.map (Decl.move .nowhere) := by
    rw [← show p.map (Decl.move .nowhere) = q.map (Decl.move .nowhere) from h]
    exact List.mem_map_of_mem hd
  obtain ⟨d', hd', heq⟩ := List.mem_map.mp hmem
  exact ⟨d', hd', heq.symm⟩

theorem within_of_subset {p q : Program} (h : p ⊆ q) : p.Within q := fun d hd => ⟨d, h hd, rfl⟩

section
variable {p q : Program} (h : p.Within q)
include h

theorem Within.alias {name target : Token} (hd : .alias name target ∈ p) :
    ∃ name' target', .alias name' target' ∈ q ∧ name.Like name' ∧ target.Like target' := by
  obtain ⟨d', hd', heq⟩ := h _ hd
  cases d' with
  | «alias» name' target' =>
    obtain ⟨hn, ht⟩ := Decl.alias.inj heq
    exact ⟨name', target', hd', hn, ht⟩
  | _ => cases heq

theorem Within.global {name type : Token} {init : Option Token} (hd : .global name type init ∈ p) :
    ∃ name' type' init', .global name' type' init' ∈ q ∧ name.Like name' ∧ type.Like type' ∧
      init.map (Token.move .nowhere) = init'.map (Token.move .nowhere) := by
  obtain ⟨d', hd', heq⟩ := h _ hd
  cases d' with
  | «global» name' type' init' =>
    obtain ⟨hn, ht, hi⟩ := Decl.global.inj heq
    exact ⟨name', type', init', hd', hn, ht, hi⟩
  | _ => cases heq

theorem Within.routine {r : Routine} (hd : .routine r ∈ p) :
    ∃ r', .routine r' ∈ q ∧ r.move .nowhere = r'.move .nowhere := by
  obtain ⟨d', hd', heq⟩ := h _ hd
  cases d' with
  | routine r' => exact ⟨r', hd', Decl.routine.inj heq⟩
  | _ => cases heq

theorem Denotes.within {t u : Token} {ty : Ty} (ht : p.Denotes t ty) (hu : t.Like u) :
    q.Denotes u ty := by
  induction ht generalizing u with
  | builtin hk => exact .builtin (hu.kind ▸ hk)
  | «alias» hk hd hn _ ih =>
    obtain ⟨name', target', hd', hn', ht'⟩ := h.alias hd
    exact .alias (hu.kind ▸ hk) hd' (hn'.lexeme.symm.trans (hn.trans hu.lexeme)) (ih ht')

theorem Variable.within {Γ : Locals} {x : String} {ty : Ty} (hx : p.Variable Γ x ty) :
    q.Variable Γ x ty := by
  cases hx with
  | «local» hl => exact .local hl
  | «global» hl hd hn ht =>
    obtain ⟨name', type', init', hd', hn', ht', -⟩ := h.global hd
    exact .global hl hd' (hn'.lexeme.symm.trans hn) (ht.within h ht')

theorem Value.within {Γ : Locals} {t u : Token} {ty : Ty} (ht : p.Value Γ t ty) (hu : t.Like u) :
    q.Value Γ u ty := by
  cases ht with
  | literal hl => exact .literal (hu.ofLiteral? ▸ hl)
  | «variable» hk hx =>
    rw [hu.lexeme] at hx
    exact .variable (hu.kind ▸ hk) (hx.within h)

theorem Typed.within {Γ : Locals} {e e' : Expr} {ty : Ty} (he : p.Typed Γ e ty)
    (heq : e.move .nowhere = e'.move .nowhere) : q.Typed Γ e' ty := by
  induction he generalizing e' with
  | literal ht =>
    cases e' with
    | literal u => exact .literal (ht.within h (Expr.literal.inj heq))
    | _ => cases heq
  | name ht =>
    cases e' with
    | name u => exact .name (ht.within h (Expr.name.inj heq))
    | _ => cases heq
  | call hf hd hn ha ht =>
    cases e' with
    | call f' args' =>
      obtain ⟨hf', hargs⟩ := Expr.call.inj heq
      have hf' : Token.Like _ f' := hf'
      obtain ⟨r', hd', hr⟩ := h.routine hd
      obtain ⟨hn', hparams, hret, -⟩ := Routine.mk.inj hr
      have hn' : Token.Like _ r'.name := hn'
      have hargs' := forall₂_of_like (S := fun a q' => ∃ ty, q.Value Γ a ty ∧ q.Denotes q'.type ty)
        (fun a b a' b' hab haa hbb => by
          obtain ⟨ty, hv, hd⟩ := hab
          exact ⟨ty, hv.within h haa, hd.within h (Param.mk.inj hbb).2⟩) ha hargs hparams
      refine .call (hf'.lexeme ▸ hf) hd' ?_ hargs' (ht.within h hret)
      rw [← hn'.lexeme, hn, hf'.lexeme]
    | _ => cases heq
  | binary hl hr hop ihl ihr =>
    cases e' with
    | binary op' t' lhs' rhs' =>
      obtain ⟨rfl, -, hlhs, hrhs⟩ := Expr.binary.inj heq
      exact .binary (ihl hlhs) (ihr hrhs) hop
    | _ => cases heq

theorem Fits.within {ret ret' : Token} (hret : ret.Like ret') {Γ Γ' : Locals} {s s' : Stmt}
    (hs : p.Fits ret Γ s Γ') (heq : s.move .nowhere = s'.move .nowhere) : q.Fits ret' Γ s' Γ' := by
  cases hs with
  | declare ht =>
    cases s' with
    | «local» name' type' init' =>
      obtain ⟨hn, hty, hi⟩ := Stmt.local.inj heq
      have hn : Token.Like _ name' := hn
      obtain rfl : init' = none := Option.map_eq_none_iff.mp hi.symm
      rw [hn.lexeme]
      exact .declare (ht.within h hty)
    | _ => cases heq
  | init ht he =>
    cases s' with
    | «local» name' type' init' =>
      obtain ⟨hn, hty, hi⟩ := Stmt.local.inj heq
      have hn : Token.Like _ name' := hn
      obtain ⟨e', rfl, he'⟩ := Option.map_eq_some_iff.mp hi.symm
      rw [hn.lexeme]
      exact .init (ht.within h hty) (he.within h he'.symm)
    | _ => cases heq
  | assign ht he =>
    cases s' with
    | assign target' e' =>
      obtain ⟨hn, he'⟩ := Stmt.assign.inj heq
      have hn : Token.Like _ target' := hn
      exact .assign (hn.lexeme ▸ ht.within h) (he.within h he')
    | _ => cases heq
  | call hf =>
    cases s' with
    | call f' args' =>
      obtain ⟨hf', hargs⟩ := Stmt.call.inj heq
      exact .call (hf.within h (congrArg₂ Expr.call hf' hargs))
    | _ => cases heq
  | ret ht he =>
    cases s' with
    | ret keyword' e' =>
      obtain ⟨-, he'⟩ := Stmt.ret.inj heq
      exact .ret (ht.within h hret) (he.within h he')
    | _ => cases heq

theorem BodyFits.within {ret ret' : Token} (hret : ret.Like ret') {Γ : Locals} {ss ss' : List Stmt}
    (hs : p.BodyFits ret Γ ss)
    (heq : ss.map (Stmt.move .nowhere) = ss'.map (Stmt.move .nowhere)) : q.BodyFits ret' Γ ss' := by
  induction hs generalizing ss' with
  | nil =>
    obtain rfl := List.map_eq_nil_iff.mp heq.symm
    exact .nil
  | cons hs _ ih =>
    obtain ⟨s', ss', rfl, hs', hss'⟩ := List.map_eq_cons_iff.mp heq.symm
    exact .cons (hs.within h hret hs'.symm) (ih hss'.symm)

theorem Opens.within {ps ps' : List Param} {Γ : Locals} (hΓ : p.Opens ps Γ)
    (heq : ps.map (Param.move .nowhere) = ps'.map (Param.move .nowhere)) : q.Opens ps' Γ := by
  refine forall₂_of_like (fun a v a' v' hav haa hvv => ?_) hΓ heq (rfl : Γ.map id = Γ.map id)
  obtain ⟨hn, hty⟩ := Param.mk.inj haa
  have hn : Token.Like _ a'.name := hn
  obtain rfl : v = v' := hvv
  exact ⟨hav.1.trans hn.lexeme, hav.2.within h hty⟩

variable (h' : q.Within p)
include h'

/-- Programs that have the like of each other's declarations are well formed together, if their
names are distinct. -/
theorem WellFormed.of_within (hn : (q.map (·.name.lexeme)).Nodup) (hp : p.WellFormed) :
    q.WellFormed where
  names := hn
  bindings r hr := by
    obtain ⟨r', hr', heq⟩ := h'.routine hr
    rw [Routine.lexemes_of_like heq]
    exact hp.bindings r' hr'
  types d hd t ht := by
    obtain ⟨d', hd', heq⟩ := h' d hd
    obtain ⟨u, hu, htu⟩ := Token.exists_like (Decl.types_move _ d ▸ Decl.types_move _ d' ▸
      congrArg Decl.types heq) ht
    obtain ⟨ty, hty⟩ := hp.types d' hd' u hu
    exact ⟨ty, hty.within h htu.symm⟩
  literals d hd t ht := by
    obtain ⟨d', hd', heq⟩ := h' d hd
    obtain ⟨u, hu, htu⟩ := Token.exists_like (Decl.values_move _ d ▸ Decl.values_move _ d' ▸
      congrArg Decl.values heq) ht
    exact Token.Like.inRange htu.symm (hp.literals d' hd' u hu)
  inits name type init hd := by
    obtain ⟨name', type', init', hd', -, htype, hinit⟩ := h'.global hd
    obtain ⟨u, rfl, hu⟩ := Option.map_eq_some_iff.mp hinit.symm
    have hu : u.Like init := hu
    obtain ⟨ty, hty, hl⟩ := hp.inits name' type' u hd'
    exact ⟨ty, hty.within h htype.symm, hu.ofLiteral? ▸ hl⟩
  bodies r hr := by
    obtain ⟨r', hr', heq⟩ := h'.routine hr
    obtain ⟨-, hparams, hret, hbody⟩ := Routine.mk.inj heq
    obtain ⟨Γ, hΓ, hfits⟩ := hp.bodies r' hr'
    exact ⟨Γ, hΓ.within h hparams.symm, hfits.within h hret.symm hbody.symm⟩

end

/-- Whether a program is well formed does not depend on places. -/
theorem WellFormed.alike {p q : Program} (h : p.Alike q) (hp : p.WellFormed) : q.WellFormed := by
  have hnames (p : Program) :
      (p.map (Decl.move .nowhere)).map (·.name.lexeme) = p.map (·.name.lexeme) := by
    simp [Decl.name_move]
  have hpq : p.map (·.name.lexeme) = q.map (·.name.lexeme) := by
    rw [← hnames p, ← hnames q]
    exact congrArg _ h
  exact hp.of_within h.within h.symm.within (hpq ▸ hp.names)

/-- Nor on the order of its declarations. -/
theorem WellFormed.perm {p q : Program} (h : p.Perm q) (hp : p.WellFormed) : q.WellFormed := by
  have hnames : (q.map (·.name.lexeme)).Nodup := (h.map _).nodup hp.names
  exact hp.of_within (within_of_subset h.subset) (within_of_subset h.symm.subset) hnames

end Program

end ThreeAddress
