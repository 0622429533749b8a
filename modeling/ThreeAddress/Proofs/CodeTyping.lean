import ThreeAddress.Proofs.Lowering

namespace ThreeAddress

/-- The type of a literal operand. -/
def Operand.literalType? : Operand → Option Ty
  | .int _ => some .int
  | .float _ => some .float
  | .bool _ => some .bool
  | _ => none

/-- A name inside a function is that of a parameter or local, else of a global. -/
def SymbolTable.nameType? (t : SymbolTable) (func x : String) : Option Ty :=
  ((t.local? func x).or (t.get? x)).bind (·.ty)

/-- What the types inside a function are taken from. -/
structure CodeTypes where
  symbols : SymbolTable
  func : String
  temps : Nat → Ty

namespace CodeTypes

variable (c : CodeTypes)

def type? : Operand → Option Ty
  | .name x => c.symbols.nameType? c.func x
  | .temp n => some (c.temps n)
  | a => a.literalType?

/-- Instructions are well typed behind arguments of the given types that wait for a call. -/
inductive WellTyped : List Ty → List Instruction → Prop
  | nil : WellTyped [] []
  | copy {x a : Operand} {ty : Ty} {rest : List Instruction} (ha : c.type? a = some ty)
    (hx : c.type? x = some ty) (h : WellTyped [] rest) : WellTyped [] (.copy x a :: rest)
  | binary {op : Operator} {x a b : Operand} {l r ty : Ty} {rest : List Instruction}
    (ha : c.type? a = some l) (hb : c.type? b = some r) (hop : op.result l r = some ty)
    (hx : c.type? x = some ty) (h : WellTyped [] rest) : WellTyped [] (.binary op x a b :: rest)
  | paramIn {x : Operand} {ty : Ty} {rest : List Instruction} (hx : c.type? x = some ty)
    (h : WellTyped [] rest) : WellTyped [] (.paramIn x :: rest)
  | param {args : List Ty} {a : Operand} {ty : Ty} {rest : List Instruction}
    (ha : c.type? a = some ty) (h : WellTyped (args ++ [ty]) rest) :
    WellTyped args (.param a :: rest)
  | call {args : List Ty} {x : Option Operand} {f : String} {s : Symbol} {ty : Ty}
    {rest : List Instruction} (hs : c.symbols.get? f = some s) (hk : s.kind = .function)
    (ha : s.params = args.map some) (hty : s.ty = some ty) (hx : ∀ y ∈ x, c.type? y = some ty)
    (h : WellTyped [] rest) : WellTyped args (.call x (.name f) args.length :: rest)
  | ret {a : Operand} {s : Symbol} {ty : Ty} {rest : List Instruction}
    (hs : c.symbols.get? c.func = some s) (hk : s.kind = .function) (hty : s.ty = some ty)
    (ha : c.type? a = some ty) (h : WellTyped [] rest) : WellTyped [] (.ret a :: rest)

/-- Code that is well typed in front of all that is. -/
def Accepts (code : List Instruction) : Prop :=
  ∀ rest, c.WellTyped [] rest → c.WellTyped [] (code ++ rest)

variable {c}

theorem Accepts.append {code more : List Instruction} (h : c.Accepts code) (h' : c.Accepts more) :
    c.Accepts (code ++ more) := by
  intro rest hrest
  rw [List.append_assoc]
  exact h _ (h' rest hrest)

end CodeTypes

/-- The temporaries from one number up to another can be given types with a property that does not
depend on the types of the others. -/
def Settles (first last : Nat) (P : (Nat → Ty) → Prop) : Prop :=
  first ≤ last ∧ ∃ T : Nat → Ty, ∀ temps, (∀ k, first ≤ k → k < last → temps k = T k) → P temps

namespace Settles

variable {i j k : Nat} {P Q : (Nat → Ty) → Prop}

theorem of_forall (n : Nat) (h : ∀ temps, P temps) : Settles n n P :=
  ⟨Nat.le_refl n, fun _ => .int, fun temps _ => h temps⟩

theorem imp (h : Settles i j P) (hPQ : ∀ temps, P temps → Q temps) : Settles i j Q := by
  obtain ⟨hij, T, hT⟩ := h
  exact ⟨hij, T, fun temps htemps => hPQ temps (hT temps htemps)⟩

theorem and (h : Settles i j P) (h' : Settles j k Q) :
    Settles i k fun temps => P temps ∧ Q temps := by
  obtain ⟨hij, T, hT⟩ := h
  obtain ⟨hjk, T', hT'⟩ := h'
  refine ⟨Nat.le_trans hij hjk, fun n => if n < j then T n else T' n, fun temps htemps => ?_⟩
  constructor
  · apply hT
    intro n hin hnj
    exact (htemps n hin (by omega)).trans (if_pos hnj)
  · apply hT'
    intro n hjn hnk
    exact (htemps n (by omega) hnk).trans (if_neg (by omega))

/-- One more temporary in front, of a given type. -/
theorem cons (ty : Ty) (h : Settles (i + 1) j P) :
    Settles i j fun temps => temps i = ty ∧ P temps := by
  have hone : Settles i (i + 1) fun temps => temps i = ty :=
    ⟨by omega, fun _ => ty, fun temps htemps => htemps i (Nat.le_refl i) (by omega)⟩
  exact hone.and h

theorem exists_temps (h : Settles i j P) : ∃ temps, P temps := by
  obtain ⟨-, T, hT⟩ := h
  exact ⟨T, hT T fun _ _ _ => rfl⟩

end Settles

theorem Operand.literalType?_of_ofLiteral? {t : Token} {a : Operand} {ty : Ty}
    (h : ofLiteral? t = some a) (ht : Ty.ofLiteral? t = some ty) : a.literalType? = some ty := by
  unfold ofLiteral? at h
  unfold Ty.ofLiteral? at ht
  split at h
  · next hk =>
    cases h
    rw [hk] at ht
    exact ht
  · next hk =>
    cases h
    rw [hk] at ht
    exact ht
  · next hk =>
    rw [hk] at ht
    cases hf : Numeral.isFloat t.lexeme.toList with
    | true =>
      rw [hf] at h ht
      cases h
      exact ht
    | false =>
      rw [hf] at h ht
      obtain ⟨v, -, rfl⟩ := Option.map_eq_some_iff.mp h
      exact ht
  · cases h

theorem Operand.literalType?_zero (ty : Ty) : (zero ty).literalType? = some ty := by
  cases ty <;> rfl

/-- The code of a literal is an operand of its type. -/
theorem Code.literalType?_value {t : Token} {a : Operand} {ty : Ty} (h : value t = .ok a)
    (ht : Ty.ofLiteral? t = some ty) : a.literalType? = some ty := by
  have hk : t.kind ≠ .ident := by
    intro hk
    simp [Ty.ofLiteral?, hk] at ht
  rw [value, if_neg hk] at h
  split at h
  · next o ho =>
    cases h
    exact Operand.literalType?_of_ofLiteral? ho ht
  · cases h

theorem CodeTypes.type?_of_literalType? (c : CodeTypes) {a : Operand} {ty : Ty}
    (h : a.literalType? = some ty) : c.type? a = some ty := by
  cases a with
  | name x => cases h
  | temp n => cases h
  | _ => exact h

/-- Inside a function a table gives the variables in scope and the functions of a program the types
that they are declared with. -/
structure SymbolTable.Sees (t : SymbolTable) (func : String) (p : Program) (Γ : Program.Locals) :
    Prop where
  locals : ∀ {x ty}, Γ.lookup x = some ty → t.nameType? func x = some ty
  globals : ∀ {name type init ty}, .global name type init ∈ p → p.Denotes type ty →
    t.nameType? func name.lexeme = some ty
  routines : ∀ {r ty}, .routine r ∈ p → p.Denotes r.ret ty →
    ∃ s, t.get? r.name.lexeme = some s ∧ s.kind = .function ∧ s.ty = some ty ∧
      ∀ tys, List.Forall₂ p.Denotes (r.params.map (·.type)) tys → s.params = tys.map some

namespace SymbolTable.Sees

variable {t : SymbolTable} {func : String} {p : Program} {Γ : Program.Locals}

theorem nameType? (h : t.Sees func p Γ) {x : String} {ty : Ty} (hx : p.Variable Γ x ty) :
    t.nameType? func x = some ty := by
  cases hx with
  | «local» hx => exact h.locals hx
  | «global» _ hd hn ht => exact hn ▸ h.globals hd ht

theorem declare (h : t.Sees func p Γ) {x : String} {ty : Ty} (hx : t.nameType? func x = some ty) :
    t.Sees func p (Γ ++ [(x, ty)]) where
  locals := by
    intro y ty' hy
    rw [List.lookup_append, Option.or_eq_some_iff] at hy
    rcases hy with hy | ⟨-, hy⟩
    · exact h.locals hy
    · simp only [List.lookup_cons, List.lookup_nil] at hy
      split at hy
      · next heq =>
        obtain rfl : y = x := by simpa using heq
        cases hy
        exact hx
      · cases hy
  globals := h.globals
  routines := h.routines

variable (h : t.Sees func p Γ) (temps : Nat → Ty)
include h

theorem type?_value {u : Token} {a : Operand} {ty : Ty} (hu : p.Value Γ u ty)
    (ha : Code.value u = .ok a) : CodeTypes.type? ⟨t, func, temps⟩ a = some ty := by
  cases hu with
  | literal hty => exact CodeTypes.type?_of_literalType? _ (Code.literalType?_value ha hty)
  | «variable» hk hx =>
    rw [Code.value, if_pos hk] at ha
    cases ha
    exact h.nameType? hx

/-- Arguments wait for a call with the types of their values. -/
theorem wellTyped_params {args : List Token} {tys : List Ty} {ps : List Instruction}
    (hargs : List.Forall₂ (p.Value Γ) args tys)
    (hps : List.Forall₂ (fun u x => ∃ a, Code.value u = .ok a ∧ Instruction.param a = x) args ps)
    {before : List Ty} {rest : List Instruction}
    (hrest : CodeTypes.WellTyped ⟨t, func, temps⟩ (before ++ tys) rest) :
    CodeTypes.WellTyped ⟨t, func, temps⟩ before (ps ++ rest) := by
  induction hargs generalizing before ps with
  | nil =>
    cases hps
    simpa using hrest
  | cons hu _ ih =>
    cases hps with
    | cons hx hps =>
      obtain ⟨a, ha, rfl⟩ := hx
      refine .param (h.type?_value temps hu ha) (ih hps ?_)
      simpa using hrest

theorem accepts_call {f : Token} {args : List Token} {ty : Ty} {dest : Option Operand}
    {code : List Instruction} (hf : p.Typed Γ (.call f args) ty)
    (hdest : ∀ y ∈ dest, CodeTypes.type? ⟨t, func, temps⟩ y = some ty)
    (hcode : Code.call dest f args = .ok code) : CodeTypes.Accepts ⟨t, func, temps⟩ code := by
  intro rest hrest
  obtain ⟨ps, hps, rfl⟩ := Code.call_eq_ok hcode
  cases hf with
  | call _ hd hn ha ht =>
    obtain ⟨tys, hargs, htys⟩ := Scope.arguments_fit_iff.mp ha
    obtain ⟨s, hs, hk, hty, hparams⟩ := h.routines hd ht
    rw [List.append_assoc, List.singleton_append]
    refine h.wellTyped_params temps hargs hps ?_
    rw [hargs.length_eq]
    exact .call (hn ▸ hs) hk (hparams tys htys) hty hdest hrest

end SymbolTable.Sees

namespace Code

variable {t : SymbolTable} {func : String} {p : Program} {Γ : Program.Locals}

/-- Code for an expression is well typed where its destination has the type of the expression. -/
def Fills (t : SymbolTable) (func : String) (e : Expr) (ty : Ty) : Prop :=
  ∀ {dest : Operand} {first last : Nat} {code : List Instruction},
    into e dest first = .ok (code, last) → Settles first last fun temps =>
      CodeTypes.type? ⟨t, func, temps⟩ dest = some ty → CodeTypes.Accepts ⟨t, func, temps⟩ code

theorem settles_spill {e : Expr} {ty : Ty} {first last : Nat} {a : Operand}
    {code : List Instruction} (h : t.Sees func p Γ) (he : p.Typed Γ e ty) (hf : Fills t func e ty)
    (hcode : spill e first (into e) = .ok (a, code, last)) :
    Settles first last fun temps =>
      CodeTypes.type? ⟨t, func, temps⟩ a = some ty ∧ CodeTypes.Accepts ⟨t, func, temps⟩ code := by
  rcases spill_eq_ok hcode with ⟨u, hu, ha, rfl, rfl⟩ | ⟨rfl, hinto⟩
  · have hvalue : p.Value Γ u ty := by
      rcases hu with rfl | rfl
      · cases he with
        | literal hu => exact hu
      · cases he with
        | name hu => exact hu
    exact .of_forall _ fun temps => ⟨h.type?_value temps hvalue ha, fun rest hrest => hrest⟩
  · refine ((hf hinto).cons ty).imp fun temps ⟨hfirst, hcode⟩ => ?_
    have htype : CodeTypes.type? ⟨t, func, temps⟩ (.temp first) = some ty := congrArg some hfirst
    exact ⟨htype, hcode htype⟩

theorem fills_value {e : Expr} {u : Token} {ty : Ty} (he : e = .literal u ∨ e = .name u)
    (h : t.Sees func p Γ) (hu : p.Value Γ u ty) : Fills t func e ty := by
  intro dest first last code hcode
  have hinto : into e dest first = (value u).map (fun a => ([.copy dest a], first)) := by
    rcases he with rfl | rfl <;> rfl
  rw [hinto] at hcode
  obtain ⟨a, ha, hcode⟩ := map_eq_ok.mp hcode
  cases hcode
  refine .of_forall _ fun temps hdest rest hrest => ?_
  exact .copy (h.type?_value temps hu ha) hdest hrest

theorem fills {e : Expr} {ty : Ty} (h : t.Sees func p Γ) (he : p.Typed Γ e ty) :
    Fills t func e ty := by
  induction he with
  | literal hu => exact fills_value (.inl rfl) h hu
  | name hu => exact fills_value (.inr rfl) h hu
  | call hf hd hn ha ht =>
    intro dest first last code hcode
    obtain ⟨made, hmade, hcode⟩ := map_eq_ok.mp hcode
    cases hcode
    refine .of_forall _ fun temps hdest => ?_
    refine h.accepts_call temps (.call hf hd hn ha ht) ?_ hmade
    intro y hy
    cases hy
    exact hdest
  | binary hl hr hop ihl ihr =>
    intro dest first last code hcode
    obtain ⟨a, left, k, b, right, hleft, hright, rfl⟩ := into_binary_eq_ok hcode
    have hleft := settles_spill h hl ihl hleft
    have hright := settles_spill h hr ihr hright
    refine (hleft.and hright).imp fun temps ⟨⟨ha, hleft⟩, hb, hright⟩ hdest => ?_
    have hlast : CodeTypes.Accepts ⟨t, func, temps⟩ [.binary _ dest a b] := fun rest hrest =>
      .binary ha hb hop hdest hrest
    exact (hleft.append hright).append hlast

/-- The code of a statement that fits is well typed. -/
theorem settles_statement {r : Routine} {s : Stmt} {Γ' : Program.Locals} {first last : Nat}
    {code : List Instruction} (hr : .routine r ∈ p) (h : t.Sees r.name.lexeme p Γ)
    (hs : p.Fits r.ret Γ s Γ')
    (hnew : ∀ v ∈ s.declared, ∀ ty, p.Denotes v.2 ty →
      t.nameType? r.name.lexeme v.1.lexeme = some ty)
    (hcode : statement t r.name s first = .ok (code, last)) :
    t.Sees r.name.lexeme p Γ' ∧
      Settles first last fun temps => CodeTypes.Accepts ⟨t, r.name.lexeme, temps⟩ code := by
  cases hs with
  | @declare name type ty ht =>
    have hname := hnew (name, type) List.mem_cons_self ty ht
    refine ⟨h.declare hname, ?_⟩
    obtain ⟨v, hv, hcode⟩ := bind_eq_ok.mp hcode
    cases hcode
    -- The value comes from the symbol of the local, as the type of the name does.
    have hzero : v = .zero ty := by
      rw [zero] at hv
      split at hv
      · next ty' hty =>
        cases hv
        obtain ⟨x, hx, hty⟩ := Option.bind_eq_some_iff.mp hty
        rw [SymbolTable.nameType?, hx] at hname
        rw [Option.some.inj (hty.symm.trans hname)]
      · cases hv
    refine .of_forall _ fun temps rest hrest => ?_
    have hv := Operand.literalType?_zero ty
    exact .copy (CodeTypes.type?_of_literalType? _ (hzero ▸ hv)) hname hrest
  | @init name type e ty ht he =>
    have hname := hnew (name, type) List.mem_cons_self ty ht
    rw [statement, store_eq_into] at hcode
    exact ⟨h.declare hname, (fills h he hcode).imp fun temps haccepts => haccepts hname⟩
  | assign ht he =>
    rw [statement, store_eq_into] at hcode
    exact ⟨h, (fills h he hcode).imp fun temps haccepts => haccepts (h.nameType? ht)⟩
  | call hf =>
    obtain ⟨made, hmade, hcode⟩ := bind_eq_ok.mp hcode
    cases hcode
    refine ⟨h, .of_forall _ fun temps => h.accepts_call temps hf ?_ hmade⟩
    intro y hy
    cases hy
  | ret ht he =>
    obtain ⟨⟨a, made, k⟩, hmade, hcode⟩ := bind_eq_ok.mp hcode
    cases hcode
    rw [operand_eq_spill] at hmade
    obtain ⟨s, hs, hk, hty, -⟩ := h.routines hr ht
    refine ⟨h, (settles_spill h he (fills h he) hmade).imp fun temps hspill => ?_⟩
    obtain ⟨ha, hmade⟩ := hspill
    exact hmade.append fun rest hrest => .ret hs hk hty ha hrest

theorem settles_statements {r : Routine} {ss : List Stmt} {first : Nat} {code : List Instruction}
    (hr : .routine r ∈ p) (h : t.Sees r.name.lexeme p Γ) (hs : p.BodyFits r.ret Γ ss)
    (hnew : ∀ v ∈ ss.flatMap Stmt.declared, ∀ ty, p.Denotes v.2 ty →
      t.nameType? r.name.lexeme v.1.lexeme = some ty)
    (hcode : statements t r.name ss first = .ok code) :
    ∃ last, Settles first last fun temps => CodeTypes.Accepts ⟨t, r.name.lexeme, temps⟩ code := by
  induction hs generalizing first code with
  | nil =>
    cases hcode
    exact ⟨first, .of_forall _ fun temps rest hrest => hrest⟩
  | cons hs _ ih =>
    rw [List.flatMap_cons, List.forall_mem_append] at hnew
    rw [statements] at hcode
    obtain ⟨⟨made, k⟩, hmade, hcode⟩ := bind_eq_ok.mp hcode
    obtain ⟨more, hmore, hcode⟩ := bind_eq_ok.mp hcode
    cases hcode
    obtain ⟨h', hmade⟩ := settles_statement hr h hs hnew.1 hmade
    obtain ⟨last, hmore⟩ := ih h' hnew.2 hmore
    exact ⟨last, (hmade.and hmore).imp fun temps hboth => hboth.1.append hboth.2⟩

end Code

namespace SymbolTable.Holds

variable {t : SymbolTable} {p : Program} {r : Routine}

/-- A parameter or local has the type of its declaration. -/
theorem nameType?_of_binding (h : t.Holds p) (hwf : p.WellFormed) (hr : .routine r ∈ p)
    {v : Token × Token} (hv : v ∈ r.bindings) {ty : Ty} (ht : p.Denotes v.2 ty) :
    t.nameType? r.name.lexeme v.1.lexeme = some ty := by
  obtain ⟨s, ty', hs, hty, ht'⟩ := h.bindings hr v hv
  obtain rfl := hwf.denotes_unique ht ht'
  rw [nameType?, hs]
  exact hty

/-- A global has the type of its declaration where no parameter or local hides it. -/
theorem nameType?_of_global (h : t.Holds p) (hwf : p.WellFormed) (hr : .routine r ∈ p)
    {name type : Token} {init : Option Token} (hd : .global name type init ∈ p)
    (hfree : ∀ v ∈ r.bindings, v.1.lexeme ≠ name.lexeme) {ty : Ty} (ht : p.Denotes type ty) :
    t.nameType? r.name.lexeme name.lexeme = some ty := by
  have hlocal : t.local? r.name.lexeme name.lexeme = none := by
    rw [Option.eq_none_iff_forall_ne_some]
    intro s hs
    obtain ⟨v, hv, hn⟩ := h.only hr _ s hs
    exact hfree v hv hn
  obtain ⟨s, hs⟩ := h.heads hd
  obtain ⟨ty', hty, ht'⟩ := hs.type
  obtain rfl := hwf.denotes_unique ht ht'
  have hget : t.get? name.lexeme = some s := hs.get
  rw [nameType?, hlocal, hget]
  exact hty

/-- A function starts with its parameters in sight. -/
theorem sees (h : t.Holds p) (hwf : p.WellFormed) (hr : .routine r ∈ p)
    (hfree : ∀ v ∈ r.bindings, ∀ name type init, .global name type init ∈ p →
      v.1.lexeme ≠ name.lexeme) {Γ : Program.Locals} (hΓ : p.Opens r.params Γ) :
    t.Sees r.name.lexeme p Γ where
  locals := by
    intro x ty hx
    obtain ⟨front, back, hsplit, -⟩ := List.lookup_eq_some_iff.mp hx
    have hmem : (x, ty) ∈ Γ := by simp [hsplit]
    obtain ⟨q, hq, rfl, ht⟩ := exists_of_mem_left hΓ.flip hmem
    have hv : (q.name, q.type) ∈ r.bindings :=
      List.mem_append_left _ (List.mem_map.mpr ⟨q, hq, rfl⟩)
    exact h.nameType?_of_binding hwf hr hv ht
  globals hd ht := h.nameType?_of_global hwf hr hd (fun v hv => hfree v hv _ _ _ hd) ht
  routines := by
    intro f ty hf ht
    obtain ⟨s, hs⟩ := h.heads hf
    obtain ⟨ty', hty, ht'⟩ := hs.type
    obtain ⟨tys, htys, hparams⟩ := hs.params
    obtain rfl := hwf.denotes_unique ht ht'
    refine ⟨s, hs.get, hs.kind, hty, fun tys' hparams' => ?_⟩
    have hunique : Relator.RightUnique p.Denotes := fun _ _ _ => hwf.denotes_unique
    rw [htys, hunique.forall₂ hparams hparams']

end SymbolTable.Holds

namespace Code

variable {t : SymbolTable} {p : Program}

theorem wellTyped_paramIns {c : CodeTypes} {qs : List Param} {rest : List Instruction}
    (hq : ∀ q ∈ qs, ∃ ty, c.type? (.ofToken q.name) = some ty) (hrest : c.WellTyped [] rest) :
    c.WellTyped [] (qs.map (fun q => Instruction.paramIn (.ofToken q.name)) ++ rest) := by
  induction qs with
  | nil => exact hrest
  | cons q qs ih =>
    obtain ⟨⟨ty, hty⟩, hqs⟩ := List.forall_mem_cons.mp hq
    exact .paramIn hty (ih hqs)

/-- The code of a function is well typed if none of its variables has the name of a global. -/
theorem wellTyped_routine (h : t.Holds p) (hwf : p.WellFormed) {r : Routine} (hr : .routine r ∈ p)
    (hfree : ∀ v ∈ r.bindings, ∀ name type init, .global name type init ∈ p →
      v.1.lexeme ≠ name.lexeme) {body : List Instruction}
    (hbody : statements t r.name r.body 0 = .ok body) :
    ∃ temps, CodeTypes.WellTyped ⟨t, r.name.lexeme, temps⟩ []
      (r.params.map (fun q => Instruction.paramIn (.ofToken q.name)) ++ body) := by
  obtain ⟨Γ, hΓ, hfits⟩ := hwf.bodies r hr
  have hnew : ∀ v ∈ r.body.flatMap Stmt.declared, ∀ ty, p.Denotes v.2 ty →
      t.nameType? r.name.lexeme v.1.lexeme = some ty := fun v hv ty ht =>
    h.nameType?_of_binding hwf hr (List.mem_append_right _ hv) ht
  obtain ⟨last, hsettles⟩ :=
    settles_statements hr (h.sees hwf hr hfree hΓ) hfits hnew hbody
  obtain ⟨temps, haccepts⟩ := hsettles.exists_temps
  refine ⟨temps, wellTyped_paramIns (fun q hq => ?_) (by simpa using haccepts [] .nil)⟩
  have hv : (q.name, q.type) ∈ r.bindings :=
    List.mem_append_left _ (List.mem_map.mpr ⟨q, hq, rfl⟩)
  obtain ⟨s, ty, -, -, ht⟩ := h.bindings hr _ hv
  exact ⟨ty, h.nameType?_of_binding hwf hr hv ht⟩

/-- Behind the declaration of a global comes a copy of a literal of its type. -/
def GlobalTyped (t : SymbolTable) (x : Operand) (after : List Instruction) : Prop :=
  ∃ name a rest s ty, x = .name name ∧ after = .copy x a :: rest ∧
    t.get? name = some s ∧ s.ty = some ty ∧ a.literalType? = some ty

theorem globalTyped_global (h : t.Holds p) (hwf : p.WellFormed) {name type : Token}
    {init : Option Token} (hd : .global name type init ∈ p) {code : List Instruction}
    (hcode : global t name type init = .ok code) :
    ∃ a, code = [.global (.ofToken name), .copy (.ofToken name) a] ∧
      ∀ rest, GlobalTyped t (.ofToken name) (.copy (.ofToken name) a :: rest) := by
  obtain ⟨s, hs⟩ := h.heads hd
  obtain ⟨ty, hty, ht⟩ := hs.type
  have hget : t.get? name.lexeme = some s := hs.get
  have hzero : zero (t.get? name.lexeme) type = .ok (.zero ty) := by
    simp only [zero, hget, Option.bind_some, hty]
  rw [global, hzero] at hcode
  obtain ⟨z, hz, hcode⟩ := bind_eq_ok.mp hcode
  cases hz
  cases init with
  | none =>
    cases hcode
    exact ⟨_, rfl, fun rest => ⟨_, _, rest, s, ty, rfl, rfl, hget, hty,
      Operand.literalType?_zero ty⟩⟩
  | some u =>
    obtain ⟨a, ha, hcode⟩ := bind_eq_ok.mp hcode
    cases hcode
    obtain ⟨ty', ht', hu⟩ := hwf.inits name type u hd
    obtain rfl := hwf.denotes_unique ht ht'
    exact ⟨_, rfl, fun rest => ⟨_, _, rest, s, ty, rfl, rfl, hget, hty,
      literalType?_value ha hu⟩⟩

theorem globalTyped_decl (h : t.Holds p) (hwf : p.WellFormed) {d : Decl} (hd : d ∈ p)
    {code : List Instruction} (hcode : decl t d = .ok code) {before : List Instruction}
    {x : Operand} {after : List Instruction} (hsplit : code = before ++ .global x :: after)
    (rest : List Instruction) : GlobalTyped t x (after ++ rest) := by
  cases d with
  | «alias» name target =>
    cases hcode
    simp at hsplit
  | «global» name type init =>
    obtain ⟨a, rfl, htyped⟩ := globalTyped_global h hwf hd hcode
    rcases List.cons_eq_append_iff.mp hsplit with ⟨-, hsplit⟩ | ⟨before', -, hsplit⟩
    · cases hsplit
      exact htyped rest
    · rcases List.singleton_eq_append_iff.mp hsplit with ⟨-, hsplit⟩ | ⟨-, hsplit⟩
      · cases hsplit
      · cases hsplit
  | routine r =>
    obtain ⟨body, -, rfl, hinner⟩ := routine_eq_ok hcode
    have hmem : Instruction.global x ∈ before ++ .global x :: after := by simp
    rw [← hsplit, List.mem_append, List.mem_cons, List.mem_singleton] at hmem
    rcases hmem with (hmem | hmem) | hmem
    · cases hmem
    · cases hinner _ hmem
    · cases hmem

theorem globalTyped_flatten (h : t.Holds p) (hwf : p.WellFormed) {ds : List Decl}
    {codes : List (List Instruction)} (hds : ds ⊆ p)
    (hcodes : List.Forall₂ (fun d code => decl t d = .ok code) ds codes)
    {before : List Instruction} {x : Operand} {after : List Instruction}
    (hsplit : codes.flatten = before ++ .global x :: after) : GlobalTyped t x after := by
  induction hcodes generalizing before with
  | nil => simp at hsplit
  | @cons d code ds codes hd _ ih =>
    rw [List.cons_subset] at hds
    rw [List.flatten_cons, List.append_eq_append_iff] at hsplit
    rcases hsplit with ⟨front, -, hrest⟩ | ⟨back, hcode, hback⟩
    · exact ih hds.2 hrest
    · rcases List.cons_eq_append_iff.mp hback with ⟨-, hrest⟩ | ⟨back', rfl, rfl⟩
      · have hrest : codes.flatten = [] ++ .global x :: after := hrest
        exact ih hds.2 hrest
      · exact globalTyped_decl h hwf hds.1 hd hcode codes.flatten

end Code

/-- In a valid batch the code of every function whose parameters and locals hide no global is well
typed, and so is the first value of every global. -/
theorem emit_well_typed (outcomes : List (Option Tree))
    (h : ∀ t, some t ∈ outcomes → t.FromSource)
    (hv : (Analysis.ofOutcomes outcomes).valid = true) :
    ∃ ps, outcomes.reduceOption.mapM Tree.program = .ok ps ∧
      ∀ t, some t ∈ outcomes → ∃ p code, t.program = .ok p ∧
        t.emit Phase.table (Analysis.ofOutcomes outcomes).symbols = .ok code ∧
        (∀ r, .routine r ∈ p →
          (∀ v ∈ r.bindings, ∀ name type init, .global name type init ∈ ps.flatten →
            v.1.lexeme ≠ name.lexeme) →
          ∃ temps, CodeTypes.WellTyped
            ⟨(Analysis.ofOutcomes outcomes).symbols, r.name.lexeme, temps⟩ []
            (Code.between r.name.lexeme code)) ∧
        ∀ before x after, code = before ++ .global x :: after →
          Code.GlobalTyped (Analysis.ofOutcomes outcomes).symbols x after := by
  obtain ⟨ps, hps, hwf, hw, hholds, hphrase⟩ := Analysis.holds_of_valid h hv
  refine ⟨ps, hps, fun t ht => ?_⟩
  obtain ⟨f, hitems, hsub⟩ := hphrase t ht
  obtain ⟨codes, hcodes⟩ := mapM_ok fun d hd =>
    Code.decl_ok hholds.serves (hsub hd) (hwf.usable hw (hsub hd))
  have hemit : t.emit Phase.table (Analysis.ofOutcomes outcomes).symbols = .ok codes.flatten := by
    rw [Tree.emit_eq _ hitems, hcodes]
    rfl
  have hcodes := forall₂_of_mapM hcodes
  refine ⟨_, _, Phrase.File.program_of_items hitems, hemit, fun r hr hfree => ?_, ?_⟩
  · have hone : ∀ d ∈ f.program, d.name.lexeme = r.name.lexeme → d = .routine r :=
      fun d hd hn => hwf.decl_unique (hsub hd) (hsub hr) hn
    obtain ⟨body, hbody, hbetween⟩ := Code.between_flatten hcodes hr hone
    rw [hbetween]
    exact Code.wellTyped_routine hholds hwf (hsub hr) hfree hbody
  · intro before x after hsplit
    exact Code.globalTyped_flatten hholds hwf hsub hcodes hsplit

/-- A call inside an operand, a local without a value, and a global and an alias of another file. -/
theorem emit_well_typed_nested_call :
    let source := Tree.ofText? "b" "func f(x: n): n { var y: n; y = x + f(y) * g; return y; }"
    let outcomes := [Tree.ofText? "a" "type n = int; var g: n = 4;", none, source]
    ∃ t p code r temps, source = some t ∧ t.program = .ok p ∧ .routine r ∈ p ∧
      t.emit Phase.table (Analysis.ofOutcomes outcomes).symbols = .ok code ∧
      CodeTypes.WellTyped ⟨(Analysis.ofOutcomes outcomes).symbols, r.name.lexeme, temps⟩ []
        (Code.between r.name.lexeme code) ∧
      (Code.between r.name.lexeme code).length = 7 := by
  rw [Tree.ofText?_ofList, Tree.ofText?_ofList]
  intro source outcomes
  obtain ⟨t, ht⟩ : ∃ t, source = some t := Option.isSome_iff_exists.mp (by decide +kernel)
  obtain ⟨ps, hps, hbatch⟩ :=
    emit_well_typed outcomes Tree.fromSource_of_mem_pair (by decide +kernel)
  obtain ⟨p, code, hp, hcode, hroutines, -⟩ := hbatch t (by simp [outcomes, ht])
  have hnames : (source.bind fun t => t.program.toOption.map fun p =>
      (p.filterMap Decl.routine?).map fun r => (r.name.lexeme, r.bindings.map (·.1.lexeme))) =
        some [("f", ["x", "y"])] := by decide +kernel
  have hglobals : (outcomes.reduceOption.mapM Tree.program).toOption.map (fun ps =>
      ps.flatten.filterMap fun d => match d with
        | .global name _ _ => some name.lexeme
        | _ => none) = some ["g"] := by decide +kernel
  have hlength : (source.bind fun t =>
      (t.emit Phase.table (Analysis.ofOutcomes outcomes).symbols).toOption.map fun code =>
        (Code.between "f" code).length) = some 7 := by decide +kernel
  simp only [ht, hp, Except.toOption, Option.bind_some, Option.map_some, Option.some.injEq]
    at hnames
  obtain ⟨r, hr, hf⟩ := List.mem_map.mp (hnames ▸ List.mem_singleton_self ("f", ["x", "y"]))
  obtain ⟨hf, hbindings⟩ := Prod.mk.inj hf
  have hr := Decl.mem_filterMap_routine?.mp hr
  rw [hps] at hglobals
  have hfree : ∀ v ∈ r.bindings, ∀ name type init, .global name type init ∈ ps.flatten →
      v.1.lexeme ≠ name.lexeme := by
    intro v hv name type init hd hn
    have hx : v.1.lexeme ∈ ["x", "y"] := hbindings ▸ List.mem_map_of_mem hv
    have hg : name.lexeme ∈ ["g"] :=
      Option.some.inj hglobals ▸ List.mem_filterMap.mpr ⟨_, hd, rfl⟩
    rw [hn, List.mem_singleton.mp hg] at hx
    exact absurd hx (by decide)
  obtain ⟨temps, htyped⟩ := hroutines r hr hfree
  refine ⟨t, p, code, r, temps, ht, hp, hr, hcode, htyped, ?_⟩
  rw [ht, Option.bind_some, hcode] at hlength
  rw [hf]
  exact Option.some.inj hlength

end ThreeAddress
