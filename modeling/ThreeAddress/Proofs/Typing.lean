import ThreeAddress.Analysis.Body
import ThreeAddress.Proofs.Signature

namespace ThreeAddress

namespace Decl

/-- The declaration of the name itself. -/
def head : Decl → Declaration
  | .alias name target => .alias name target
  | .global name type init => .global name type init
  | .routine r => .function r.name r.ret (r.params.map (·.type))

theorem head_mem (d : Decl) : d.head ∈ d.declarations := by
  cases d <;> exact List.mem_cons_self

theorem key_head (d : Decl) : d.head.key = d.name.lexeme := by
  cases d <;> rfl

theorem eq_head_of_mem {d : Decl} {e : Declaration} (h : e ∈ d.declarations)
    (hk : ':' ∉ e.key.toList) : e = d.head := by
  cases d with
  | «alias» name target => exact List.mem_singleton.mp h
  | «global» name ty init => exact List.mem_singleton.mp h
  | routine r =>
    rcases List.mem_cons.mp h with rfl | h
    · rfl
    · obtain ⟨⟨q, slot⟩, _, rfl⟩ := List.mem_map.mp h
      exact absurd (Symbol.colon_mem_qualify _ _) hk

end Decl

theorem mismatch_eq_nil_iff {want got : Ty} {report : Ty → Ty → Diagnostic} :
    mismatch (some want) (some got) report = [] ↔ want = got := by
  simp [mismatch]

namespace SymbolTable.Describes

variable {t : SymbolTable} {p : Program}

theorem entry_head (h : t.Describes p) {d : Decl} (hd : d ∈ p) : ∃ s, t.Entry p d.head s :=
  h.entry d hd d.head d.head_mem

/-- A name without a colon is that of a declaration. -/
theorem entry_of_get? (h : t.Describes p) {x : String} (hx : ':' ∉ x.toList) {s : Symbol}
    (hs : t.get? x = some s) : ∃ d ∈ p, d.name.lexeme = x ∧ t.Entry p d.head s := by
  obtain ⟨d, hd, e, he, rfl⟩ := h.only x s hs
  obtain rfl := Decl.eq_head_of_mem he hx
  obtain ⟨s', hs'⟩ := h.entry_head hd
  obtain rfl := Option.some.inj (hs.symm.trans hs'.get)
  exact ⟨d, hd, d.key_head.symm, hs'⟩

theorem lookup_of_denotes (h : t.Describes p) {u : Token} {ty : Ty} (hu : p.Denotes u ty) :
    TypeName.lookup t u = .ok (some ty) := by
  unfold TypeName.lookup TypeName.ofToken
  cases hu with
  | builtin hk => rw [hk]
  | @«alias» _ name target _ hk hd hn hu =>
    obtain ⟨s, hs⟩ := h.entry_head hd
    obtain ⟨ty', hty, hu'⟩ := hs.type
    have hget : t.get? u.lexeme = some s := by
      rw [← hn]
      exact hs.get
    have htype : s.kind = .type := hs.kind
    rw [hk, hget]
    simp only [htype, if_true, hty, h.unique hu hu']

theorem denotes_of_lookup (h : t.Describes p) {u : Token} {o : Option Ty}
    (hl : TypeName.lookup t u = .ok o) : ∃ ty, o = some ty ∧ p.Denotes u ty := by
  unfold TypeName.lookup TypeName.ofToken at hl
  cases hk : Ty.ofKind? u.kind with
  | some ty =>
    rw [hk] at hl
    cases hl
    exact ⟨ty, rfl, .builtin hk⟩
  | none =>
    rw [hk] at hl
    cases hs : t.get? u.lexeme with
    | none =>
      rw [hs] at hl
      cases hl
    | some s =>
      rw [hs] at hl
      by_cases htype : s.kind = .type
      · simp only [htype, if_true] at hl
        cases hl
        obtain ⟨d, hd, e, he, hx⟩ := h.only _ _ hs
        obtain ⟨s', hs'⟩ := h.entry d hd e he
        obtain rfl : s = s' := Option.some.inj (hs.symm.trans (hx ▸ hs'.get))
        obtain ⟨ty, hty, hu⟩ := hs'.type
        have hke : e.kind = .type := hs'.kind ▸ htype
        refine ⟨ty, hty, ?_⟩
        cases e with
        | «alias» name target => exact .alias hk (Decl.alias_mem_declarations.mp he ▸ hd) hx hu
        | _ => cases hke
      · simp only [htype, if_false] at hl
        cases hl

end SymbolTable.Describes

namespace Scope

/-- A scope has the symbols of a table and the parameters and locals in sight. -/
structure Shows (c : Scope) (t : SymbolTable) (Γ : Program.Locals) : Prop where
  symbols : c.symbols = t
  locals : ∀ x, (c.locals[x]?).map (·.ty) = (Γ.lookup x).map some

variable {c : Scope} {t : SymbolTable} {p : Program} {Γ : Program.Locals}

theorem Shows.of_some (h : c.Shows t Γ) {x : String} {ty : Ty} (hx : Γ.lookup x = some ty) :
    ∃ l, c.locals[x]? = some l ∧ l.ty = some ty := by
  have := h.locals x
  rw [hx, Option.map_some, Option.map_eq_some_iff] at this
  exact this

theorem Shows.of_none (h : c.Shows t Γ) {x : String} (hx : Γ.lookup x = none) :
    c.locals[x]? = none := by
  have := h.locals x
  rw [hx, Option.map_none, Option.map_eq_none_iff] at this
  exact this

theorem Shows.lookup_of_none (h : c.Shows t Γ) {x : String} (hx : c.locals[x]? = none) :
    Γ.lookup x = none := by
  have := h.locals x
  rw [hx, Option.map_none, eq_comm, Option.map_eq_none_iff] at this
  exact this

theorem Shows.lookup_of_some (h : c.Shows t Γ) {x : String} {l : Local}
    (hx : c.locals[x]? = some l) : ∃ ty, l.ty = some ty ∧ Γ.lookup x = some ty := by
  have := h.locals x
  rw [hx, Option.map_some, eq_comm, Option.map_eq_some_iff] at this
  obtain ⟨ty, hty, hl⟩ := this
  exact ⟨ty, hl.symm, hty⟩

theorem Shows.add (h : c.Shows t Γ) {x : String} (hx : Γ.lookup x = none) (ty : Ty) (site : Site) :
    (c.add x ⟨some ty, site⟩).Shows t (Γ ++ [(x, ty)]) where
  symbols := h.symbols
  locals y := by
    simp only [Scope.add, Std.TreeMap.getElem?_insert, Std.compare_eq_iff_eq, List.lookup_append]
    by_cases hy : x = y
    · subst hy
      simp [hx]
    · have hyx : (y == x) = false := by simpa using Ne.symm hy
      simp [hy, h.locals y, List.lookup_cons, hyx]

theorem nameType_of_variable (hd : t.Describes p) (hc : c.Shows t Γ) {x : String} {ty : Ty}
    (h : p.Variable Γ x ty) : c.nameType x = .ok (some ty) := by
  unfold nameType
  cases h with
  | «local» h =>
    obtain ⟨l, hl, hty⟩ := hc.of_some h
    simp only [hl, hty]
  | «global» h hm hn ht =>
    obtain ⟨s, hs⟩ := hd.entry_head hm
    obtain ⟨ty', hty, ht'⟩ := hs.type
    have hget : t.get? x = some s := hn ▸ hs.get
    have hk : s.kind = .variable := hs.kind
    simp only [hc.of_none h, hc.symbols, hget, hk, if_true, hty, hd.unique ht ht']

theorem variable_of_nameType (hd : t.Describes p) (hc : c.Shows t Γ) {x : String}
    (hx : ':' ∉ x.toList) {o : Option Ty} (h : c.nameType x = .ok o) :
    ∃ ty, o = some ty ∧ p.Variable Γ x ty := by
  unfold nameType at h
  cases hl : c.locals[x]? with
  | some l =>
    rw [hl] at h
    cases h
    obtain ⟨ty, hty, hx⟩ := hc.lookup_of_some hl
    exact ⟨ty, hty, .local hx⟩
  | none =>
    rw [hl, hc.symbols] at h
    cases hs : t.get? x with
    | none =>
      rw [hs] at h
      cases h
    | some s =>
      rw [hs] at h
      simp only at h
      split at h
      · next hk =>
        cases h
        obtain ⟨d, hm, hn, he⟩ := hd.entry_of_get? hx hs
        obtain ⟨ty, hty, ht⟩ := he.type
        refine ⟨ty, hty, ?_⟩
        have hk' : d.head.kind = .variable := he.kind ▸ hk
        cases d with
        | «global» name type init => exact .global (hc.lookup_of_none hl) hm hn ht
        | _ => cases hk'
      · cases h

theorem target_of_variable (hd : t.Describes p) (hc : c.Shows t Γ) {u : Token} {ty : Ty}
    (h : p.Variable Γ u.lexeme ty) : c.target u = (some ty, []) := by
  simp only [target, nameType_of_variable hd hc h]

theorem variable_of_target (hd : t.Describes p) (hc : c.Shows t Γ) {u : Token}
    (hu : ':' ∉ u.lexeme.toList) (hf : (c.target u).2 = []) :
    ∃ ty, (c.target u).1 = some ty ∧ p.Variable Γ u.lexeme ty := by
  unfold target at hf ⊢
  split at hf
  · next o ho => exact variable_of_nameType hd hc hu ho
  · cases hf
  · cases hf

theorem value_complete (hd : t.Describes p) (hc : c.Shows t Γ) {u : Token} {ty : Ty}
    (hv : u.IsValue) (h : p.Value Γ u ty) (hr : u.InRange) : c.value u = (some ty, []) := by
  unfold value
  cases h with
  | literal h =>
    have hk : u.kind ≠ .ident := by
      intro hk
      simp [Ty.ofLiteral?, hk] at h
    rw [if_neg hk, h, (literalFaults_eq_nil_iff hv).mpr hr]
  | «variable» hk h => rw [if_pos hk, nameType_of_variable hd hc h]

theorem value_sound (hd : t.Describes p) (hc : c.Shows t Γ) {u : Token} (hv : u.IsValue)
    (hf : (c.value u).2 = []) :
    ∃ ty, c.value u = (some ty, []) ∧ p.Value Γ u ty ∧ u.InRange := by
  have hrange (hk : u.kind = .ident) : u.InRange := by
    intro hn
    rw [hk] at hn
    cases hn
  cases hv with
  | name hk hx =>
    unfold value at hf ⊢
    rw [if_pos hk] at hf ⊢
    split at hf
    · next o ho =>
      obtain ⟨ty, rfl, hty⟩ := variable_of_nameType hd hc hx ho
      exact ⟨ty, rfl, .variable hk hty, hrange hk⟩
    · cases hf
    · cases hf
  | @literal ty h hn =>
    have hk : u.kind ≠ .ident := by
      intro hk
      simp [Ty.ofLiteral?, hk] at h
    unfold value at hf ⊢
    rw [if_neg hk] at hf ⊢
    have hf : literalFaults u = [] := hf
    refine ⟨ty, by rw [h, hf], .literal h, ?_⟩
    exact (literalFaults_eq_nil_iff (.literal h hn)).mp hf

theorem function?_complete (hd : t.Describes p) (hc : c.Shows t Γ) {f : Token} {r : Routine}
    (hf : Γ.lookup f.lexeme = none) (hm : .routine r ∈ p) (hn : r.name.lexeme = f.lexeme) :
    ∃ s, c.function? f = .ok s ∧ t.Entry p (Decl.head (.routine r)) s := by
  obtain ⟨s, hs⟩ := hd.entry_head hm
  have hget : t.get? f.lexeme = some s := hn ▸ hs.get
  have hk : s.kind = .function := hs.kind
  have hl : c.locals.contains f.lexeme = false := by
    rw [Std.TreeMap.contains_eq_isSome_getElem?, hc.of_none hf]
    rfl
  refine ⟨s, ?_, hs⟩
  simp only [function?, hl, Bool.false_eq_true, if_false, hc.symbols, hget, hk, if_true]

theorem function?_sound (hd : t.Describes p) (hc : c.Shows t Γ) {f : Token}
    (hx : ':' ∉ f.lexeme.toList) {s : Symbol} (h : c.function? f = .ok s) :
    Γ.lookup f.lexeme = none ∧ ∃ r, .routine r ∈ p ∧ r.name.lexeme = f.lexeme ∧
      t.Entry p (Decl.head (.routine r)) s := by
  unfold function? at h
  simp only at h
  split at h
  · cases h
  · next hl =>
    have hnone : c.locals[f.lexeme]? = none := by
      rw [Std.TreeMap.contains_eq_isSome_getElem?] at hl
      simpa using hl
    refine ⟨hc.lookup_of_none hnone, ?_⟩
    rw [hc.symbols] at h
    split at h
    · cases h
    · next s' hs =>
      split at h
      · next hk =>
        cases h
        obtain ⟨d, hm, hn, he⟩ := hd.entry_of_get? hx hs
        have hk' : d.head.kind = .function := he.kind ▸ hk
        cases d with
        | routine r => exact ⟨r, hm, hn, he⟩
        | _ => cases hk'
      · cases h

theorem mismatches_eq_nil_iff (callee : Token) {tys tys' : List Ty} {args : List Token} (i : Nat)
    (hl : args.length = tys'.length) (hlen : tys.length = tys'.length) :
    (((tys.map some).zip (args.zip (tys'.map some))).zipIdx i).flatMap
        (fun ((want, arg, got), i) => mismatch want got (argumentFault callee (i + 1) arg)) = [] ↔
      tys = tys' := by
  induction tys generalizing tys' args i with
  | nil => simp [List.eq_nil_of_length_eq_zero hlen.symm]
  | cons ty tys ih =>
    cases tys' with
    | nil => cases hlen
    | cons ty' tys' =>
      cases args with
      | nil => cases hl
      | cons a args =>
        have hrest := ih (i + 1) (Nat.succ.inj hl) (Nat.succ.inj hlen)
        simp only [List.map_cons, List.zip_cons_cons, List.zipIdx_cons, List.flatMap_cons,
          List.append_eq_nil_iff, mismatch_eq_nil_iff, List.cons.injEq]
        exact and_congr_right fun _ => hrest

theorem arguments_eq_nil_iff (callee : Token) {tys tys' : List Ty} {args : List Token}
    (hl : args.length = tys'.length) :
    arguments callee (tys.map some) (args.zip (tys'.map some)) = [] ↔ tys = tys' := by
  unfold arguments
  simp only [List.length_map, List.length_zip, hl, Nat.min_self]
  split
  · next hlen => exact mismatches_eq_nil_iff callee 0 hl hlen
  · next hlen =>
    simp only [List.cons_ne_nil, false_iff]
    exact fun h => hlen (congrArg List.length h)

theorem denoted_unique (hd : t.Describes p) {us : List Token} {tys tys' : List Ty}
    (h : List.Forall₂ p.Denotes us tys) (h' : List.Forall₂ p.Denotes us tys') : tys = tys' := by
  induction h generalizing tys' with
  | nil =>
    cases h'
    rfl
  | cons hu _ ih =>
    cases h' with
    | cons hu' h' => rw [hd.unique hu hu', ih h']

/-- The rule for arguments, with the types written out. -/
theorem arguments_fit_iff {args : List Token} {qs : List Param} :
    List.Forall₂ (fun a q => ∃ ty, p.Value Γ a ty ∧ p.Denotes q.type ty) args qs ↔
      ∃ tys, List.Forall₂ (p.Value Γ) args tys ∧
        List.Forall₂ p.Denotes (qs.map (·.type)) tys := by
  constructor
  · intro h
    induction h with
    | nil => exact ⟨[], .nil, .nil⟩
    | cons h _ ih =>
      obtain ⟨ty, hv, hd⟩ := h
      obtain ⟨tys, hvs, hds⟩ := ih
      exact ⟨ty :: tys, .cons hv hvs, .cons hd hds⟩
  · rintro ⟨tys, hv, hd⟩
    induction hv generalizing qs with
    | nil =>
      cases qs with
      | nil => exact .nil
      | cons q qs => cases hd
    | cons hv _ ih =>
      cases qs with
      | nil => cases hd
      | cons q qs =>
        cases hd with
        | cons hd hds => exact .cons ⟨_, hv, hd⟩ (ih hds)

theorem values_complete (hd : t.Describes p) (hc : c.Shows t Γ) {args : List Token}
    {tys : List Ty} (hv : ∀ a ∈ args, a.IsValue) (h : List.Forall₂ (p.Value Γ) args tys)
    (hr : ∀ a ∈ args, a.InRange) : args.map c.value = tys.map fun ty => (some ty, []) := by
  induction h with
  | nil => rfl
  | cons h _ ih =>
    obtain ⟨hv, hvs⟩ := List.forall_mem_cons.mp hv
    obtain ⟨hr, hrs⟩ := List.forall_mem_cons.mp hr
    rw [List.map_cons, List.map_cons, value_complete hd hc hv h hr, ih hvs hrs]

theorem values_sound (hd : t.Describes p) (hc : c.Shows t Γ) {args : List Token}
    (hv : ∀ a ∈ args, a.IsValue) (hf : (args.map c.value).flatMap (·.2) = []) :
    ∃ tys, args.map c.value = tys.map (fun ty => (some ty, [])) ∧
      List.Forall₂ (p.Value Γ) args tys ∧ ∀ a ∈ args, a.InRange := by
  induction args with
  | nil => exact ⟨[], rfl, .nil, List.forall_mem_nil _⟩
  | cons a args ih =>
    obtain ⟨hv, hvs⟩ := List.forall_mem_cons.mp hv
    simp only [List.map_cons, List.flatMap_cons, List.append_eq_nil_iff] at hf
    obtain ⟨ty, hval, htyped, hr⟩ := value_sound hd hc hv hf.1
    obtain ⟨tys, hmap, hall, hrs⟩ := ih hvs hf.2
    refine ⟨ty :: tys, ?_, .cons htyped hall, List.forall_mem_cons.mpr ⟨hr, hrs⟩⟩
    rw [List.map_cons, hmap, hval, List.map_cons]

theorem call_complete (hd : t.Describes p) (hc : c.Shows t Γ) {f : Token} {args : List Token}
    {ty : Ty} (hv : ∀ a ∈ args, a.IsValue) (h : p.Typed Γ (.call f args) ty)
    (hr : ∀ a ∈ args, a.InRange) : c.call f args = (some ty, []) := by
  cases h with
  | call hf hm hn ha ht =>
    obtain ⟨s, hs, he⟩ := function?_complete hd hc hf hm hn
    obtain ⟨ty', hty, ht'⟩ := he.type
    obtain ⟨tys, htys, hps⟩ := he.params
    obtain ⟨tys', hvals, hds⟩ := arguments_fit_iff.mp ha
    obtain rfl := denoted_unique hd hps hds
    have hmap := values_complete hd hc hv hvals hr
    have hargs := (arguments_eq_nil_iff f hvals.length_eq).mpr (rfl : tys = tys)
    simp only [call, hs, hmap, htys, List.map_map, Function.comp_def, hty, hd.unique ht ht', hargs]
    simp

theorem call_sound (hd : t.Describes p) (hc : c.Shows t Γ) {f : Token} {args : List Token}
    (hx : ':' ∉ f.lexeme.toList) (hv : ∀ a ∈ args, a.IsValue) (hf : (c.call f args).2 = []) :
    ∃ ty, (c.call f args).1 = some ty ∧ p.Typed Γ (.call f args) ty ∧ ∀ a ∈ args, a.InRange := by
  unfold call at hf ⊢
  simp only at hf ⊢
  cases hs : c.function? f with
  | error d => simp [hs] at hf
  | ok s =>
    simp only [hs, List.append_eq_nil_iff] at hf ⊢
    obtain ⟨hvals, hargs⟩ := hf
    obtain ⟨hnone, r, hm, hn, he⟩ := function?_sound hd hc hx hs
    obtain ⟨ty, hty, ht⟩ := he.type
    obtain ⟨tys, htys, hps⟩ := he.params
    obtain ⟨tys', hmap, hall, hr⟩ := values_sound hd hc hv hvals
    rw [hmap, htys, List.map_map] at hargs
    obtain rfl := (arguments_eq_nil_iff f hall.length_eq).mp hargs
    exact ⟨ty, hty, .call hnone hm hn (arguments_fit_iff.mpr ⟨tys, hall, hps⟩) ht, hr⟩

/-- An expression that has a type by the rules is found to have it. -/
theorem infer_complete (hd : t.Describes p) (hc : c.Shows t Γ) {e : Expr} {ty : Ty}
    (hv : ∀ u ∈ e.values, u.IsValue) (h : p.Typed Γ e ty) (hr : ∀ u ∈ e.values, u.InRange) :
    c.infer e = (some ty, []) := by
  induction e generalizing ty with
  | literal u =>
    cases h with
    | literal h => exact value_complete hd hc (hv u (by simp [Expr.values])) h (hr u (by simp [Expr.values]))
  | name u =>
    cases h with
    | name h => exact value_complete hd hc (hv u (by simp [Expr.values])) h (hr u (by simp [Expr.values]))
  | call f args => exact call_complete hd hc hv h hr
  | binary op u lhs rhs ihl ihr =>
    cases h with
    | binary hl hr' hop =>
      simp only [Expr.values, List.forall_mem_append] at hv hr
      rw [infer, ihl hv.1 hl hr.1, ihr hv.2 hr' hr.2]
      simp only [hop, List.append_nil]

/-- An expression without a fault has the type that was found. -/
theorem infer_sound (hd : t.Describes p) (hc : c.Shows t Γ) {e : Expr}
    (hv : ∀ u ∈ e.values, u.IsValue) (hx : ∀ u ∈ e.callees, ':' ∉ u.lexeme.toList)
    (hf : (c.infer e).2 = []) :
    ∃ ty, (c.infer e).1 = some ty ∧ p.Typed Γ e ty ∧ ∀ u ∈ e.values, u.InRange := by
  induction e with
  | literal u =>
    obtain ⟨ty, hval, h, hr⟩ := value_sound hd hc (hv u (by simp [Expr.values])) hf
    exact ⟨ty, congrArg Prod.fst hval, .literal h, by simpa [Expr.values] using hr⟩
  | name u =>
    obtain ⟨ty, hval, h, hr⟩ := value_sound hd hc (hv u (by simp [Expr.values])) hf
    exact ⟨ty, congrArg Prod.fst hval, .name h, by simpa [Expr.values] using hr⟩
  | call f args => exact call_sound hd hc (hx f (by simp [Expr.callees])) hv hf
  | binary op u lhs rhs ihl ihr =>
    simp only [Expr.values, Expr.callees, List.forall_mem_append] at hv hx ⊢
    -- With an untyped operand there is a fault, so that both operands have a type.
    have hsides : (c.infer lhs).2 = [] ∧ (c.infer rhs).2 = [] := by
      simp only [infer] at hf
      split at hf
      · split at hf
        · exact List.append_eq_nil_iff.mp hf
        · simp at hf
      · exact List.append_eq_nil_iff.mp hf
    obtain ⟨l, hl, htl, hrl⟩ := ihl hv.1 hx.1 hsides.1
    obtain ⟨r, hr, htr, hrr⟩ := ihr hv.2 hx.2 hsides.2
    simp only [infer, hl, hr] at hf ⊢
    cases hop : op.result l r with
    | none => simp [hop] at hf
    | some ty => exact ⟨ty, rfl, .binary htl htr hop, hrl, hrr⟩

end Scope

end ThreeAddress
