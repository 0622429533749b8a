import ThreeAddress.Sample.Generate

namespace ThreeAddress

namespace Dice

variable {σ α β : Type}

/-- Whatever the state is, a draw gives what satisfies a condition. -/
def Always (m : StateM σ α) (P : α → Prop) : Prop := ∀ s, P (m s).1

variable {m : StateM σ α} {f : α → StateM σ β} {P : α → Prop} {Q : β → Prop}

theorem Always.pure {a : α} (h : P a) : Always (Pure.pure a : StateM σ α) P := fun _ => h

theorem Always.bind (h : Always m P) (hf : ∀ a, P a → Always (f a) Q) : Always (m >>= f) Q :=
  fun s => hf _ (h s) _

theorem Always.ite {c : Prop} [Decidable c] {m' : StateM σ α} (h : c → Always m P)
    (h' : ¬c → Always m' P) : Always (if c then m else m') P := by
  split
  · next hc => exact h hc
  · next hc => exact h' hc

variable (d : Dice σ)

theorem always_draw (bound : Nat) : Always (d.draw bound) fun _ => True := fun _ => trivial

theorem always_flip (odds : Odds) : Always (d.flip odds) fun _ => True := fun _ => trivial

theorem always_pick (x : α) (xs : List α) : Always (d.pick x xs) (· ∈ x :: xs) :=
  (d.always_draw xs.length).bind fun _ _ => .pure (List.getElem_mem _)

theorem always_times (h : Always m P) (n : Nat) :
    Always (times n m) fun as => as.length = n ∧ ∀ a ∈ as, P a := by
  induction n with
  | zero => exact .pure ⟨rfl, List.forall_mem_nil _⟩
  | succ n ih =>
    refine h.bind fun a ha => ih.bind fun as has => .pure ⟨?_, ?_⟩
    · rw [List.length_cons, has.1]
    · exact List.forall_mem_cons.mpr ⟨ha, has.2⟩

end Dice

namespace Sample

def IntType.Known (aliases : Nat) : IntType → Prop
  | .int => True
  | .alias n => n < aliases

def Number.Small (n : Number) : Prop := n.value < UInt64.size

/-- What a statement can use. -/
structure Context where
  names : Names
  params : Nat
  locals : Nat

section
variable (c : Context)

def Var.Known : Var → Prop
  | .param n => n < c.params
  | .global n => n < c.names.globals
  | .local n => n < c.locals

def Argument.Known : Argument → Prop
  | .var v => v.Known c
  | .number n => n < UInt64.size

structure Call.Known (k : Call) : Prop where
  callee : c.names.functions[k.function]? = some k.args.length
  args : ∀ a ∈ k.args, a.Known c

def Term.Known : Term → Prop
  | .call k => k.Known c
  | .var v => v.Known c
  | .number n => n.Small

def arithmetic : List Operator := [.add, .sub, .mul, .div, .rem]

structure Sum.Known (s : Sum) : Prop where
  first : s.first.Known c
  rest : ∀ x ∈ s.rest, x.1 ∈ arithmetic ∧ x.2.Known c

def Statement.Known : Statement → Prop
  | .local n type init => n = c.locals ∧ type.Known c.names.aliases ∧ ∀ s ∈ init, s.Known c
  | .assign target value => target.Known c ∧ value.Known c
  | .call k => k.Known c
  | .comment => True

/-- What can be used behind a statement. -/
def Context.behind : Statement → Context
  | .local _ _ _ => { c with locals := c.locals + 1 }
  | _ => c

end

/-- Statements each of which uses what it can, and what can be used behind them. -/
inductive Body : Context → List Statement → Context → Prop
  | nil {c : Context} : Body c [] c
  | cons {c c' : Context} {s : Statement} {ss : List Statement} (h : s.Known c)
    (hs : Body (c.behind s) ss c') : Body c (s :: ss) c'

structure Func.Known (names : Names) (f : Func) : Prop where
  number : f.number = names.functions.length
  arity : f.params.length ≤ 3
  params : ∀ t ∈ f.params, t.Known names.aliases
  ret : f.ret.Known names.aliases
  size : f.body.length ≤ 6
  body : ∃ c, Body ⟨names, f.params.length, 0⟩ f.body c ∧ f.result.Known c

def Piece.Known (names : Names) : Piece → Prop
  | .alias n target => n = names.aliases ∧ target.Known names.aliases
  | .global n type init => n = names.globals ∧ type.Known names.aliases ∧ ∀ v ∈ init, v.Small
  | .comment cs => ∀ c ∈ cs, c ∈ commentChars
  | .function f => f.Known names

/-- Pieces each of which uses what is declared in front of it, and what is declared behind them. -/
inductive Pieces : Names → List Piece → Names → Prop
  | nil {names : Names} : Pieces names [] names
  | cons {names names' : Names} {p : Piece} {ps : List Piece} (h : p.Known names)
    (hs : Pieces (names.add p) ps names') : Pieces names (p :: ps) names'

open Dice

variable {σ : Type} (d : Dice σ) (names : Names) (c : Context) {scope : List Var}

theorem always_drawType (odds : Odds) (aliases : Nat) :
    Always (drawType d odds aliases) (IntType.Known aliases) := by
  cases aliases with
  | zero => exact .pure trivial
  | succ n =>
    refine (d.always_flip odds).bind fun a _ => .ite (fun _ => ?_) (fun _ => .pure trivial)
    exact (d.always_draw n).bind fun i _ => .pure i.isLt

theorem always_drawNumber : Always (drawNumber d) Number.Small :=
  (d.always_draw 99999).bind fun v _ => (d.always_draw 9).bind fun _ _ =>
    .pure (Nat.lt_trans v.isLt (by decide))

section
variable {c} (hscope : ∀ v ∈ scope, v.Known c)
include hscope

theorem always_drawArgument : Always (drawArgument d scope) (Argument.Known c) := by
  have hnumber : Always (do return Argument.number (← d.draw 999)) (Argument.Known c) :=
    (d.always_draw 999).bind fun v _ => .pure (Nat.lt_trans v.isLt (by decide))
  cases scope with
  | nil => exact hnumber
  | cons v scope =>
    refine (d.always_flip .five).bind fun a _ => .ite (fun _ => ?_) (fun _ => hnumber)
    exact (d.always_pick v scope).bind fun w hw => .pure (hscope w hw)

theorem always_drawCall {first : Nat} {more : List Nat} (hf : c.names.functions = first :: more) :
    Always (drawCall d scope first more) (Call.Known c) := by
  refine (d.always_draw more.length).bind fun i _ => ?_
  refine (always_times (always_drawArgument d hscope) _).bind fun args hargs => .pure ⟨?_, hargs.2⟩
  rw [hf, hargs.1]
  exact List.getElem?_eq_getElem i.isLt

theorem always_drawTerm : Always (drawTerm d scope c.names.functions) (Term.Known c) := by
  have hnumber : Always (do return Term.number (← drawNumber d)) (Term.Known c) :=
    (always_drawNumber d).bind fun v hv => .pure hv
  have hcall {first : Nat} {more : List Nat} (hf : c.names.functions = first :: more) :
      Always (do return Term.call (← drawCall d scope first more)) (Term.Known c) :=
    (always_drawCall d hscope hf).bind fun k hk => .pure hk
  have hvar {v : Var} {vs : List Var} (hs : scope = v :: vs) :
      Always (do return Term.var (← d.pick v vs)) (Term.Known c) :=
    (d.always_pick v vs).bind fun w hw => .pure (hscope w (hs ▸ hw))
  refine (d.always_draw 99).bind fun n _ => ?_
  cases hs : scope with
  | nil =>
    cases hf : c.names.functions with
    | nil => exact hnumber
    | cons f fs => exact .ite (fun _ => hs ▸ hcall hf) (fun _ => hnumber)
  | cons v vs =>
    cases hf : c.names.functions with
    | nil => exact .ite (fun _ => hvar hs) (fun _ => hnumber)
    | cons f fs =>
      exact .ite (fun _ => hs ▸ hcall hf) (fun _ => .ite (fun _ => hvar hs) (fun _ => hnumber))

theorem always_drawSum : Always (drawSum d scope c.names.functions) (Sum.Known c) := by
  refine (always_drawTerm d hscope).bind fun first hfirst => ?_
  refine (d.always_draw 3).bind fun n _ => ?_
  have hpart : Always (do
      let op ← d.pick .add [.sub, .mul, .div, .rem]
      let t ← drawTerm d scope c.names.functions
      return (op, t)) fun x => x.1 ∈ arithmetic ∧ x.2.Known c :=
    (d.always_pick _ _).bind fun op hop => (always_drawTerm d hscope).bind fun t ht => .pure ⟨hop, ht⟩
  exact (always_times hpart n.val).bind fun rest hrest => .pure ⟨hfirst, hrest.2⟩

theorem always_drawLocal :
    Always (drawLocal d c.names scope c.locals) (Statement.Known c) := by
  refine (always_drawType d .four c.names.aliases).bind fun type htype => ?_
  refine (d.always_flip .eight).bind fun _ _ => .ite (fun _ => ?_) (fun _ => ?_)
  · exact (always_drawSum d hscope).bind fun s hs => .pure ⟨rfl, htype, by simpa using hs⟩
  · exact .pure ⟨rfl, htype, nofun⟩

theorem always_drawStatement :
    Always (drawStatement d c.names scope c.locals) (Statement.Known c) := by
  have hsum := always_drawSum d hscope
  refine (d.always_draw 99).bind fun n _ => ?_
  refine .ite (fun _ => always_drawLocal d hscope) (fun _ => .ite (fun _ => ?_) (fun _ => ?_))
  · cases scope with
    | nil => exact .pure trivial
    | cons v vs =>
      refine (d.always_pick v vs).bind fun w hw => ?_
      exact hsum.bind fun s hs => .pure ⟨hscope w hw, hs⟩
  · refine .ite (fun _ => ?_) (fun _ => .pure trivial)
    cases hf : c.names.functions with
    | nil => exact .pure trivial
    | cons f fs => exact (always_drawCall d hscope hf).bind fun k hk => .pure hk

end

theorem Var.Known.behind {c : Context} {v : Var} (h : v.Known c) (s : Statement) :
    v.Known (c.behind s) := by
  cases s with
  | «local» n type init =>
    cases v with
    | «local» i => exact Nat.lt_succ_of_lt h
    | _ => exact h
  | _ => exact h

/-- Behind statements that are drawn everything in scope can be used. -/
theorem always_drawBody (n : Nat) {c : Context} (hscope : ∀ v ∈ scope, v.Known c) :
    Always (drawBody d c.names n scope c.locals) fun r =>
      r.1.length = n ∧ ∃ c', c'.names = c.names ∧ Body c r.1 c' ∧ ∀ v ∈ r.2, v.Known c' := by
  induction n generalizing scope c with
  | zero => exact .pure ⟨rfl, c, rfl, .nil, hscope⟩
  | succ n ih =>
    refine (always_drawStatement d hscope).bind fun s hs => ?_
    have hnames : (c.behind s).names = c.names := by cases s <;> rfl
    have hrest {scope' : List Var} (h : ∀ v ∈ scope', v.Known (c.behind s)) :
        Always (do
            let r ← drawBody d c.names n scope' (c.behind s).locals
            return (s :: r.1, r.2)) fun r =>
          r.1.length = n + 1 ∧ ∃ c', c'.names = c.names ∧ Body c r.1 c' ∧
            ∀ v ∈ r.2, v.Known c' := by
      have hdrawn := ih h
      rw [hnames] at hdrawn
      refine hdrawn.bind fun r hr => .pure ?_
      obtain ⟨hlength, c', hc', hbody, hall⟩ := hr
      exact ⟨congrArg (· + 1) hlength, c', hc', .cons hs hbody, hall⟩
    have hold : ∀ v ∈ scope, v.Known (c.behind s) := fun v hv => (hscope v hv).behind s
    cases s with
    | «local» i type init =>
      refine hrest (List.forall_mem_append.mpr ⟨hold, List.forall_mem_singleton.mpr ?_⟩)
      exact Nat.lt_succ_of_le (Nat.le_of_eq hs.1)
    | assign target value => exact hrest hold
    | call k => exact hrest hold
    | comment => exact hrest hold

theorem always_drawFunction : Always (drawFunction d names) (Func.Known names) := by
  refine (d.always_draw 3).bind fun arity _ => ?_
  refine (always_times (always_drawType d .four names.aliases) arity.val).bind fun params hparams => ?_
  refine (always_drawType d .four names.aliases).bind fun ret hret => ?_
  refine (d.always_draw 6).bind fun count _ => ?_
  have hscope : ∀ v ∈ (List.range arity.val).map Var.param ++ (List.range names.globals).map Var.global,
      v.Known ⟨names, arity.val, 0⟩ := by
    simp only [List.forall_mem_append, List.forall_mem_map, List.mem_range]
    exact ⟨fun i hi => hi, fun i hi => hi⟩
  refine (always_drawBody d count.val hscope).bind fun r hr => ?_
  obtain ⟨hlength, c, hnames, hbody, hall⟩ := hr
  have hsum := always_drawSum d hall
  rw [hnames] at hsum
  refine hsum.bind fun result hresult => .pure ⟨rfl, ?_, hparams.2, hret, ?_, c, ?_, hresult⟩
  · exact hparams.1 ▸ Nat.le_of_lt_succ arity.isLt
  · exact hlength ▸ Nat.le_of_lt_succ count.isLt
  · rw [hparams.1]
    exact hbody

theorem always_drawPiece : Always (drawPiece d names) (Piece.Known names) := by
  refine (d.always_draw 99).bind fun n _ => .ite (fun _ => ?_) (fun _ => .ite (fun _ => ?_)
    (fun _ => .ite (fun _ => ?_) (fun _ => ?_)))
  · exact (always_drawType d .three names.aliases).bind fun t ht => .pure ⟨rfl, ht⟩
  · refine (always_drawType d .four names.aliases).bind fun t ht => ?_
    refine (d.always_flip .seven).bind fun _ _ => .ite (fun _ => ?_) (fun _ => .pure ⟨rfl, ht, nofun⟩)
    exact (always_drawNumber d).bind fun v hv => .pure ⟨rfl, ht, by simpa using hv⟩
  · refine (d.always_draw 40).bind fun n _ => ?_
    exact (always_times (d.always_pick 'a' commentChars.tail) n.val).bind fun cs hcs => .pure hcs.2
  · exact (always_drawFunction d names).bind fun f hf => .pure hf

/-- Every piece ends its line. -/
theorem Piece.text_ne_empty (mark : String) (p : Piece) : p.text mark ≠ "" := by
  have happend (s : String) {t : String} (ht : t ≠ "") : s ++ t ≠ "" := by simp [ht]
  cases p <;> exact happend _ (by decide)

/-- The pieces of a program: no more than bytes were asked for, and as many bytes as that. -/
theorem always_drawPieces (mark : String) (fuel missing : Nat) :
    Always (drawPieces d mark fuel missing names) fun texts =>
      ∃ ps names', texts = ps.map (·.text mark) ∧ Pieces names ps names' ∧ ps.length ≤ fuel ∧
        (missing ≤ fuel → missing ≤ (String.join texts).utf8ByteSize) := by
  induction fuel generalizing missing names with
  | zero => exact .pure ⟨[], names, rfl, .nil, Nat.le_refl 0, fun h => Nat.le_trans h (Nat.zero_le _)⟩
  | succ fuel ih =>
    refine .ite (fun hzero => ?_) (fun hmissing => ?_)
    · exact .pure ⟨[], names, rfl, .nil, Nat.zero_le _, fun _ => hzero ▸ Nat.zero_le _⟩
    · refine (always_drawPiece d names).bind fun p hp => ?_
      refine (ih (names.add p) (missing - (p.text mark).utf8ByteSize)).bind fun texts htexts => .pure ?_
      obtain ⟨ps, names', rfl, hps, hlength, hbytes⟩ := htexts
      refine ⟨p :: ps, names', rfl, .cons hp hps, Nat.succ_le_succ hlength, fun hle => ?_⟩
      have hpos : 0 < (p.text mark).utf8ByteSize := by
        rw [Nat.pos_iff_ne_zero, Ne, String.utf8ByteSize_eq_zero_iff]
        exact p.text_ne_empty mark
      have hjoin : (String.join (p.text mark :: ps.map (·.text mark))).utf8ByteSize =
          (p.text mark).utf8ByteSize + (String.join (ps.map (·.text mark))).utf8ByteSize := by
        rw [String.join_cons, String.utf8ByteSize_append]
      have := hbytes (by omega)
      omega

end Sample

end ThreeAddress
