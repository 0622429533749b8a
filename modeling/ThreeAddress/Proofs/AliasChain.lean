import Mathlib.Data.List.Perm.Subperm
import Mathlib.Logic.Relation
import ThreeAddress.Analysis.TypeName
import ThreeAddress.Proofs.Program

namespace ThreeAddress

namespace Aliases

/-- Symbols and targets are those of a program's aliases. -/
structure Mirrors (a : Aliases) (p : Program) : Prop where
  named : ∀ {x s}, a.symbols.get? x = some s → s.name = x
  isType : ∀ {x s}, a.symbols.get? x = some s → (s.kind = .type ↔ x ∈ a.targets)
  declared : ∀ {x}, x ∈ a.targets → ∃ s, a.symbols.get? x = some s
  sound : ∀ {x u}, a.targets[x]? = some u → ∃ name, .alias name u.token ∈ p ∧ name.lexeme = x
  complete : ∀ {name target}, .alias name target ∈ p →
    ∃ u, a.targets[name.lexeme]? = some u ∧ u.token = target

/-- A token leads to a type through a number of aliases. -/
inductive Leads (targets : Std.TreeMap String AliasTarget) : Nat → Token → Ty → Prop
  | builtin {t : Token} {ty : Ty} (h : Ty.ofKind? t.kind = some ty) : Leads targets 0 t ty
  | alias {n : Nat} {t : Token} {u : AliasTarget} {ty : Ty} (hk : Ty.ofKind? t.kind = none)
    (hu : targets[t.lexeme]? = some u) (h : Leads targets n u.token ty) : Leads targets (n + 1) t ty

/-- The target of an alias leads to a type. -/
def Stands (targets : Std.TreeMap String AliasTarget) (x : String) (ty : Ty) : Prop :=
  ∃ u n, targets[x]? = some u ∧ Leads targets n u.token ty

/-- What is remembered is right. -/
def Sound (a : Aliases) : Prop :=
  ∀ x o, a.known[x]? = some o → ∃ ty, o = some ty ∧ Stands a.targets x ty

/-- What is remembered is the type, or that there is none. -/
def Faithful (a : Aliases) : Prop :=
  ∀ x o, a.known[x]? = some o → ∀ ty, o = some ty ↔ Stands a.targets x ty

variable {a : Aliases} {p : Program}

theorem Leads.unique {n m : Nat} {t : Token} {ty ty' : Ty} (h : Leads a.targets n t ty)
    (h' : Leads a.targets m t ty') : n = m ∧ ty = ty' := by
  induction h generalizing m with
  | builtin h =>
    cases h' with
    | builtin h' => exact ⟨rfl, Option.some.inj (h.symm.trans h')⟩
    | «alias» hk => rw [h] at hk; cases hk
  | «alias» hk hu _ ih =>
    cases h' with
    | builtin h' => rw [hk] at h'; cases h'
    | «alias» _ hu' h' =>
      obtain rfl := Option.some.inj (hu.symm.trans hu')
      obtain ⟨rfl, rfl⟩ := ih h'
      exact ⟨rfl, rfl⟩

theorem Sound.faithful (h : a.Sound) : a.Faithful := by
  intro x o ho ty
  obtain ⟨ty', rfl, u, n, hu, hl⟩ := h x o ho
  constructor
  · rintro ⟨⟩
    exact ⟨u, n, hu, hl⟩
  · rintro ⟨v, m, hv, hl'⟩
    obtain rfl := Option.some.inj (hu.symm.trans hv)
    exact congrArg some (hl.unique hl').2

theorem denotes_of_leads (hm : a.Mirrors p) {n : Nat} {t : Token} {ty : Ty}
    (h : Leads a.targets n t ty) : p.Denotes t ty := by
  induction h with
  | builtin h => exact .builtin h
  | «alias» hk hu _ ih =>
    obtain ⟨name, hd, hn⟩ := hm.sound hu
    exact .alias hk hd hn ih

theorem leads_of_denotes (hm : a.Mirrors p) {t : Token} {ty : Ty} (h : p.Denotes t ty) :
    ∃ n, Leads a.targets n t ty := by
  induction h with
  | builtin h => exact ⟨0, .builtin h⟩
  | «alias» hk hd hn _ ih =>
    obtain ⟨n, h⟩ := ih
    obtain ⟨u, hu, rfl⟩ := hm.complete hd
    exact ⟨n + 1, .alias hk (hn ▸ hu) h⟩

theorem Mirrors.mem_targets {targets : Std.TreeMap String AliasTarget} {x : String}
    {u : AliasTarget} (hu : targets[x]? = some u) : x ∈ targets := by
  rw [Std.TreeMap.mem_iff_isSome_getElem?, hu]
  rfl

theorem get?_of_ofToken {symbols : SymbolTable} {t : Token} {s : Symbol}
    (h : TypeName.ofToken symbols t = .alias s) : symbols.get? t.lexeme = some s := by
  unfold TypeName.ofToken at h
  split at h
  · cases h
  · split at h
    · cases h
    · next s' hs =>
      split at h <;> cases h
      exact hs

/-- A token in the place of a type is a type's word, an alias with a target, or neither. -/
theorem ofToken_cases (hm : a.Mirrors p) (t : Token) :
    (∃ ty, Ty.ofKind? t.kind = some ty ∧ TypeName.ofToken a.symbols t = .builtin ty) ∨
    (Ty.ofKind? t.kind = none ∧ ∃ s u, TypeName.ofToken a.symbols t = .alias s ∧
      s.name = t.lexeme ∧ a.targets[t.lexeme]? = some u) ∨
    (Ty.ofKind? t.kind = none ∧ a.targets[t.lexeme]? = none ∧
      (TypeName.ofToken a.symbols t = .unknown ∨ ∃ s, TypeName.ofToken a.symbols t = .other s)) := by
  unfold TypeName.ofToken
  cases hk : Ty.ofKind? t.kind with
  | some ty => exact .inl ⟨ty, rfl, rfl⟩
  | none =>
    right
    cases hs : a.symbols.get? t.lexeme with
    | none =>
      right
      refine ⟨rfl, ?_, .inl rfl⟩
      by_contra hne
      obtain ⟨u, hu⟩ := Option.ne_none_iff_exists'.mp hne
      obtain ⟨s, hs'⟩ := hm.declared (Mirrors.mem_targets hu)
      rw [hs] at hs'
      cases hs'
    | some s =>
      by_cases hty : s.kind = .type
      · left
        have hmem := (hm.isType hs).mp hty
        obtain ⟨u, hu⟩ := Option.isSome_iff_exists.mp (Std.TreeMap.isSome_getElem?_iff_mem.mpr hmem)
        exact ⟨rfl, s, u, if_pos hty, hm.named hs, hu⟩
      · right
        refine ⟨rfl, ?_, .inr ⟨s, if_neg hty⟩⟩
        by_contra hne
        obtain ⟨u, hu⟩ := Option.ne_none_iff_exists'.mp hne
        exact hty ((hm.isType hs).mpr (Mirrors.mem_targets hu))

/-- A path of distinct aliases with enough steps left. -/
structure Room (a : Aliases) (fuel : Nat) (path : AliasPath) : Prop where
  nodup : path.names.Nodup
  aliases : ∀ x ∈ path.names, x ∈ a.targets
  enough : a.targets.size < path.names.length + fuel

theorem Room.fuel_ne_zero {fuel : Nat} {path : AliasPath} (h : a.Room fuel path) : fuel ≠ 0 := by
  have hs : path.names ⊆ a.targets.keys := fun x hx => Std.TreeMap.mem_keys.mpr (h.aliases x hx)
  have hl := (h.nodup.subperm hs).length_le
  rw [Std.TreeMap.length_keys] at hl
  have := h.enough
  omega

theorem Room.push {fuel : Nat} {path : AliasPath} (h : a.Room (fuel + 1) path) {x : String}
    (hx : x ∈ a.targets) (hn : x ∉ path.names) : a.Room fuel (path.push x) where
  nodup := List.nodup_cons.mpr ⟨hn, h.nodup⟩
  aliases y hy := by
    rcases List.mem_cons.mp hy with rfl | hy
    · exact hx
    · exact h.aliases y hy
  enough := by
    have := h.enough
    simp only [AliasPath.names_push, List.length_cons]
    omega

section
variable (targets : Std.TreeMap String AliasTarget)

/-- The target of an alias is a name. -/
def Next (x y : String) : Prop :=
  ∃ u, targets[x]? = some u ∧ Ty.ofKind? u.token.kind = none ∧ u.token.lexeme = y

abbrev Reaches : String → String → Prop := Relation.ReflTransGen (Next targets)

/-- A way from the name comes back to it. -/
def OnCycle (x : String) : Prop := Relation.TransGen (Next targets) x x

/-- A way through aliases, last first, from a token to another one. -/
inductive Trail (start : AliasTarget) : List String → AliasTarget → Prop
  | nil : Trail start [] start
  | cons {xs : List String} {u v : AliasTarget} (h : Trail start xs u)
    (hk : Ty.ofKind? u.token.kind = none) (hv : targets[u.token.lexeme]? = some v) :
    Trail start (u.token.lexeme :: xs) v

end

section
variable (a : Aliases)

/-- What is wrong with a token by itself: it is the name of nothing, or of something else than a
type. -/
def lost (origin : Nat) (t : Token) : Option Fault :=
  match TypeName.ofToken a.symbols t with
  | .unknown => some ⟨origin, TypeName.unknownType t⟩
  | .other s =>
    some ⟨origin, (TypeName.notType t s).withNote s!"`{t.lexeme}` is declared here" s.site⟩
  | _ => none

/-- The complaint about a cycle through an alias. -/
def cycleAt (x : String) : List Fault :=
  match a.symbols.get? x, a.targets[x]? with
  | some s, some u => [⟨u.origin, cyclic s⟩]
  | _, _ => []

/-- How a walk ends: with a type, at a token that is wrong by itself, at a known alias, or at an
alias of its own way. -/
inductive Ends (path : List String) (u : AliasTarget) : Option Ty → Option Fault → Prop
  | builtin {ty : Ty} (h : Ty.ofKind? u.token.kind = some ty) : Ends path u (some ty) none
  | lost {f : Fault} (h : a.lost u.origin u.token = some f) : Ends path u none (some f)
  | known {o : Option Ty} (hk : Ty.ofKind? u.token.kind = none)
    (hx : u.token.lexeme ∈ a.targets) (h : a.known[u.token.lexeme]? = some o) : Ends path u o none
  | cycle {f : Fault} (hk : Ty.ofKind? u.token.kind = none) (hx : u.token.lexeme ∈ path)
    (h : a.cycleAt u.token.lexeme = [f]) : Ends path u none (some f)

end

section
variable {targets : Std.TreeMap String AliasTarget} {x y : String}

theorem lost_of_builtin (i : Nat) {t : Token} {ty : Ty} (hk : Ty.ofKind? t.kind = some ty) :
    a.lost i t = none := by
  simp [lost, TypeName.ofToken, hk]

theorem lost_of_alias (hm : a.Mirrors p) (i : Nat) {t : Token} (hk : Ty.ofKind? t.kind = none)
    (hx : t.lexeme ∈ a.targets) : a.lost i t = none := by
  obtain ⟨ty, hb, -⟩ | ⟨-, s, u, ho, -⟩ | ⟨-, hu, -⟩ := ofToken_cases hm t
  · rw [hk] at hb
    cases hb
  · rw [lost, ho]
  · rw [Std.TreeMap.mem_iff_isSome_getElem?, hu] at hx
    cases hx

/-- A token that is wrong by itself does not lead on. -/
theorem of_lost (hm : a.Mirrors p) {i : Nat} {t : Token} {f : Fault} (h : a.lost i t = some f) :
    Ty.ofKind? t.kind = none ∧ t.lexeme ∉ a.targets := by
  have hk : Ty.ofKind? t.kind = none := by
    by_contra hne
    obtain ⟨ty, hk⟩ := Option.ne_none_iff_exists'.mp hne
    rw [lost_of_builtin i hk] at h
    cases h
  refine ⟨hk, fun hx => ?_⟩
  rw [lost_of_alias hm i hk hx] at h
  cases h

/-- A name leads to a type if its target does. -/
theorem stands_iff_leads {t : Token} (hk : Ty.ofKind? t.kind = none) (ty : Ty) :
    Stands targets t.lexeme ty ↔ ∃ n, Leads targets n t ty := by
  constructor
  · rintro ⟨u, n, hu, hl⟩
    exact ⟨n + 1, .alias hk hu hl⟩
  · rintro ⟨n, hl⟩
    cases hl with
    | builtin hb =>
      rw [hk] at hb
      cases hb
    | «alias» _ hu hl => exact ⟨_, _, hu, hl⟩

theorem stands_iff_target {u : AliasTarget} (hu : targets[x]? = some u) (ty : Ty) :
    Stands targets x ty ↔ ∃ n, Leads targets n u.token ty := by
  constructor
  · rintro ⟨v, n, hv, hl⟩
    obtain rfl := Option.some.inj (hu.symm.trans hv)
    exact ⟨n, hl⟩
  · rintro ⟨n, hl⟩
    exact ⟨u, n, hu, hl⟩

/-- The type of an alias is the type of those behind it, which are nearer to it. -/
theorem leads_of_reaches (h : Relation.TransGen (Next targets) x y) {u : AliasTarget} {n : Nat}
    {ty : Ty} (hu : targets[x]? = some u) (hl : Leads targets n u.token ty) :
    ∃ v m, m < n ∧ targets[y]? = some v ∧ Leads targets m v.token ty := by
  have hnext {x y : String} (h : Next targets x y) {u : AliasTarget} {n : Nat}
      (hu : targets[x]? = some u) (hl : Leads targets n u.token ty) :
      ∃ v m, m < n ∧ targets[y]? = some v ∧ Leads targets m v.token ty := by
    obtain ⟨u', hu', hk, rfl⟩ := h
    obtain rfl := Option.some.inj (hu.symm.trans hu')
    cases hl with
    | builtin hb =>
      rw [hk] at hb
      cases hb
    | @«alias» m _ v _ _ hv hl => exact ⟨v, m, Nat.lt_succ_self m, hv, hl⟩
  induction h with
  | single hstep => exact hnext hstep hu hl
  | tail _ hstep ih =>
    obtain ⟨v, m, hlt, hv, hl⟩ := ih
    obtain ⟨w, k, hlt', hw, hl⟩ := hnext hstep hv hl
    exact ⟨w, k, Nat.lt_trans hlt' hlt, hw, hl⟩

/-- An alias on a cycle has no type. -/
theorem OnCycle.not_stands (h : OnCycle a.targets x) (ty : Ty) : ¬ Stands a.targets x ty := by
  rintro ⟨u, n, hu, hl⟩
  obtain ⟨v, m, hlt, hv, hl'⟩ := leads_of_reaches h hu hl
  obtain rfl := Option.some.inj (hu.symm.trans hv)
  have := (hl.unique hl').1
  omega

namespace Trail

variable {start u : AliasTarget} {xs : List String} (h : Trail targets start xs u)
include h

theorem mem_targets (hx : x ∈ xs) : x ∈ targets := by
  induction h with
  | nil => cases hx
  | cons _ _ hv ih =>
    rcases List.mem_cons.mp hx with rfl | hx
    · exact Mirrors.mem_targets hv
    · exact ih hx

theorem transGen (hk : Ty.ofKind? u.token.kind = none) :
    ∀ x ∈ xs, Relation.TransGen (Next targets) x u.token.lexeme := by
  induction h with
  | nil => exact List.forall_mem_nil _
  | cons _ hu hv ih =>
    have hnext : Next targets _ _ := ⟨_, hv, hk, rfl⟩
    exact List.forall_mem_cons.mpr ⟨.single hnext, fun x hx => (ih hu x hx).tail hnext⟩

/-- All on the way lead where its end leads. -/
theorem leads_iff (ty : Ty) :
    ((∃ n, Leads targets n start.token ty) ↔ ∃ n, Leads targets n u.token ty) ∧
      ∀ x ∈ xs, (Stands targets x ty ↔ ∃ n, Leads targets n u.token ty) := by
  induction h with
  | nil => exact ⟨Iff.rfl, List.forall_mem_nil _⟩
  | cons _ hu hv ih =>
    obtain ⟨hstart, hxs⟩ := ih
    have hstep := (stands_iff_leads hu ty).symm.trans (stands_iff_target hv ty)
    exact ⟨hstart.trans hstep, List.forall_mem_cons.mpr
      ⟨stands_iff_target hv ty, fun x hx => (hxs x hx).trans hstep⟩⟩

end Trail

/-- A walk goes along a way of new aliases to one of the ends. -/
theorem walk_ends (hm : a.Mirrors p) {fuel : Nat} {path : AliasPath} {start u : AliasTarget}
    (hr : a.Room fuel path) (ht : Trail a.targets start path.names u)
    (hnew : ∀ x ∈ path.names, a.known[x]? = none) :
    let w := a.walk fuel path u.origin u.token
    ∃ v, Trail a.targets start w.path v ∧ w.path.Nodup ∧ (∀ x ∈ w.path, a.known[x]? = none) ∧
      a.Ends w.path v w.ty w.fault := by
  induction fuel generalizing path u with
  | zero => exact absurd rfl hr.fuel_ne_zero
  | succ fuel ih =>
    intro w
    have hw : w = a.walk (fuel + 1) path u.origin u.token := rfl
    rw [walk] at hw
    obtain ⟨ty, hk, ho⟩ | ⟨hk, s, v, ho, hn, hv⟩ | ⟨hk, hv, ho⟩ := ofToken_cases hm u.token
    · rw [ho] at hw
      rw [hw]
      exact ⟨u, ht, hr.nodup, hnew, .builtin hk⟩
    · have hs := get?_of_ofToken ho
      rw [ho] at hw
      simp only [hn, hv] at hw
      cases hknown : a.known[u.token.lexeme]? with
      | some o =>
        simp only [hknown] at hw
        rw [hw]
        exact ⟨u, ht, hr.nodup, hnew, .known hk (Mirrors.mem_targets hv) hknown⟩
      | none =>
        simp only [hknown] at hw
        by_cases hmem : u.token.lexeme ∈ path.members
        · rw [if_pos hmem] at hw
          rw [hw]
          refine ⟨u, ht, hr.nodup, hnew, .cycle hk ((path.mem_members _).mp hmem) ?_⟩
          rw [cycleAt, hs, hv]
        · rw [if_neg hmem] at hw
          have hnot : u.token.lexeme ∉ path.names := fun h => hmem ((path.mem_members _).mpr h)
          rw [hw]
          exact ih (hr.push (Mirrors.mem_targets hv) hnot) (ht.cons hk hv)
            (List.forall_mem_cons.mpr ⟨hknown, hnew⟩)
    · refine ⟨u, ?_⟩
      rcases ho with ho | ⟨s, ho⟩
      · rw [ho] at hw
        rw [hw]
        exact ⟨ht, hr.nodup, hnew, .lost (by rw [lost, ho])⟩
      · rw [ho] at hw
        rw [hw]
        exact ⟨ht, hr.nodup, hnew, .lost (by rw [lost, ho])⟩

/-- The type at the end of a walk. -/
theorem Ends.type_iff (hm : a.Mirrors p) {start u : AliasTarget} {path : List String}
    {o : Option Ty} {f : Option Fault} (he : a.Ends path u o f)
    (ht : Trail a.targets start path u) (hknown : a.Faithful) (ty : Ty) :
    o = some ty ↔ ∃ n, Leads a.targets n u.token ty := by
  cases he with
  | @builtin ty' hk =>
    constructor
    · rintro ⟨⟩
      exact ⟨0, .builtin hk⟩
    · rintro ⟨n, hl⟩
      exact congrArg some ((Leads.builtin hk).unique hl).2
  | lost hlost =>
    obtain ⟨hk, hx⟩ := of_lost hm hlost
    rw [← stands_iff_leads hk, iff_false_left (Option.some_ne_none ty).symm]
    rintro ⟨v, n, hv, -⟩
    exact hx (Mirrors.mem_targets hv)
  | known hk _ ho => rw [hknown _ _ ho ty, stands_iff_leads hk]
  | cycle hk hx =>
    rw [← stands_iff_leads hk, iff_false_left (Option.some_ne_none ty).symm]
    exact OnCycle.not_stands (ht.transGen hk _ hx) ty

theorem Ends.fault_of_some {u : AliasTarget} {path : List String} {ty : Ty} {f : Option Fault}
    (he : a.Ends path u (some ty) f) : f = none := by
  cases he <;> rfl

/-- If all that is known has a type, a walk without a fault finds one. -/
theorem Sound.type_of_ends (hs : a.Sound) {u : AliasTarget} {path : List String} {o : Option Ty}
    (he : a.Ends path u o none) : ∃ ty, o = some ty := by
  cases he with
  | @builtin ty => exact ⟨ty, rfl⟩
  | known _ _ ho =>
    obtain ⟨ty, rfl, -⟩ := hs _ _ ho
    exact ⟨ty, rfl⟩

end

theorem getElem?_learn (w : AliasWalk) (x : String) :
    (a.learn w).known[x]? = if x ∈ w.path then some w.ty else a.known[x]? := by
  have h (names : List String) (m : Std.TreeMap String (Option Ty)) :
      (names.foldl (fun m name => m.insert name w.ty) m)[x]? =
        if x ∈ names then some w.ty else m[x]? := by
    induction names generalizing m with
    | nil => simp
    | cons y ys ih =>
      rw [List.foldl_cons, ih, Std.TreeMap.getElem?_insert]
      by_cases hy : x ∈ ys
      · simp [hy]
      · simp [hy, eq_comm (a := x)]
  exact h w.path a.known

/-- Aliases of a program, with a right memory. -/
structure Right (a : Aliases) (p : Program) : Prop where
  mirrors : a.Mirrors p
  sound : a.Sound

theorem Right.learn (h : a.Right p) {w : AliasWalk} {ty : Ty} (hty : w.ty = some ty)
    (hp : ∀ x ∈ w.path, Stands a.targets x ty) : (a.learn w).Right p := by
  refine ⟨⟨h.mirrors.named, h.mirrors.isType, h.mirrors.declared, h.mirrors.sound,
    h.mirrors.complete⟩, fun x o ho => ?_⟩
  rw [getElem?_learn] at ho
  split at ho
  · next hx => exact ⟨ty, by rw [← Option.some.inj ho, hty], hp x hx⟩
  · exact h.sound x o ho

theorem room_empty (a : Aliases) : a.Room (a.targets.size + 1) .empty where
  nodup := List.nodup_nil
  aliases := nofun
  enough := by simp [AliasPath.empty]

/-- The ends of a walk from a token. -/
theorem exists_ends (hm : a.Mirrors p) (i : Nat) (t : Token) :
    let w := a.walk (a.targets.size + 1) .empty i t
    ∃ u, Trail a.targets ⟨t, i⟩ w.path u ∧ w.path.Nodup ∧ (∀ x ∈ w.path, a.known[x]? = none) ∧
      a.Ends w.path u w.ty w.fault :=
  walk_ends hm a.room_empty (.nil : Trail a.targets ⟨t, i⟩ AliasPath.empty.names ⟨t, i⟩)
    (List.forall_mem_nil _)

theorem resolve_of_denotes (h : a.Right p) (i : Nat) {t : Token} {ty : Ty}
    (hd : p.Denotes t ty) : ∃ a', a.resolve i t = (some ty, [], a') ∧ a'.Right p := by
  obtain ⟨u, ht, -, -, he⟩ := exists_ends h.mirrors i t
  rw [resolve]
  generalize a.walk (a.targets.size + 1) .empty i t = w at ht he ⊢
  obtain ⟨o, f, path⟩ := w
  have hleads := (ht.leads_iff ty).1.mp (leads_of_denotes h.mirrors hd)
  obtain rfl : o = some ty := (he.type_iff h.mirrors ht h.sound.faithful ty).mpr hleads
  obtain rfl : f = none := he.fault_of_some
  exact ⟨_, rfl, h.learn rfl fun x hx => ((ht.leads_iff ty).2 x hx).mpr hleads⟩

theorem faults_resolve (h : a.Right p) (i : Nat) {t : Token} (hn : ¬ ∃ ty, p.Denotes t ty) :
    (a.resolve i t).2.1 ≠ [] := by
  obtain ⟨u, ht, -, -, he⟩ := exists_ends h.mirrors i t
  rw [resolve]
  generalize a.walk (a.targets.size + 1) .empty i t = w at ht he ⊢
  obtain ⟨o, f, path⟩ := w
  intro hf
  obtain rfl : f = none := Option.toList_eq_nil_iff.mp hf
  obtain ⟨ty, rfl⟩ := h.sound.type_of_ends he
  have hleads := (he.type_iff h.mirrors ht h.sound.faithful ty).mp rfl
  obtain ⟨n, hl⟩ := (ht.leads_iff ty).1.mpr hleads
  exact hn ⟨ty, denotes_of_leads h.mirrors hl⟩

theorem resolveAll_of_denotes (h : a.Right p) (i : Nat) {ts : List Token} {tys : List Ty}
    (hd : List.Forall₂ p.Denotes ts tys) :
    ∃ a', a.resolveAll i ts = (tys.map some, [], a') ∧ a'.Right p := by
  induction hd generalizing a with
  | nil => exact ⟨a, rfl, h⟩
  | cons hd _ ih =>
    obtain ⟨b, hb, h⟩ := resolve_of_denotes h i hd
    obtain ⟨c, hc, h⟩ := ih h
    exact ⟨c, by simp [resolveAll, hb, hc], h⟩

theorem faults_resolveAll (h : a.Right p) (i : Nat) {ts : List Token}
    (hn : ¬ ∀ t ∈ ts, ∃ ty, p.Denotes t ty) : (a.resolveAll i ts).2.1 ≠ [] := by
  induction ts generalizing a with
  | nil => exact absurd nofun hn
  | cons t ts ih =>
    simp only [resolveAll]
    by_cases ht : ∃ ty, p.Denotes t ty
    · obtain ⟨ty, hd⟩ := ht
      obtain ⟨b, hb, hr⟩ := resolve_of_denotes h i hd
      rw [hb]
      refine ih hr fun hts => hn fun u hu => ?_
      rcases List.mem_cons.mp hu with rfl | hu
      · exact ⟨ty, hd⟩
      · exact hts u hu
    · exact List.append_ne_nil_of_left_ne_nil (faults_resolve h i ht) _

/-- An alias is resolved like a token that names it. -/
theorem resolveAlias_eq (hm : a.Mirrors p) (i : Nat) {t : Token} (hk : Ty.ofKind? t.kind = none)
    (hx : t.lexeme ∈ a.targets) : a.resolveAlias t.lexeme = a.resolve i t := by
  obtain ⟨ty, hb, -⟩ | ⟨-, s, u, ho, hs, hu⟩ | ⟨-, hu, -⟩ := ofToken_cases hm t
  · rw [hk] at hb
    cases hb
  · rw [resolveAlias, resolve, walk, ho]
    simp only [hs, hu]
    cases a.known[t.lexeme]? with
    | some o => rfl
    | none => simp [AliasPath.empty]
  · rw [Std.TreeMap.mem_iff_isSome_getElem?, hu] at hx
    cases hx

/-- A token that names an alias. -/
def nameOf (name : Token) : Token := { name with kind := .ident }

theorem resolveAlias_nameOf (hm : a.Mirrors p) {name target : Token} (hd : .alias name target ∈ p) :
    a.resolveAlias name.lexeme = a.resolve 0 (nameOf name) := by
  obtain ⟨u, hu, -⟩ := hm.complete hd
  exact resolveAlias_eq hm 0 (t := nameOf name) rfl (Mirrors.mem_targets hu)

theorem denotes_nameOf_iff (hm : a.Mirrors p) {name target : Token} (hd : .alias name target ∈ p)
    (ty : Ty) : p.Denotes (nameOf name) ty ↔ p.Denotes target ty := by
  refine ⟨fun h => ?_, .alias rfl hd rfl⟩
  obtain ⟨n, hl⟩ := leads_of_denotes hm h
  obtain ⟨u, hu, rfl⟩ := hm.complete hd
  cases hl with
  | builtin hb => cases hb
  | «alias» _ hu' hl =>
    obtain rfl := Option.some.inj (hu.symm.trans hu')
    exact denotes_of_leads hm hl

theorem resolveAlias_of_denotes (h : a.Right p) {name target : Token} {ty : Ty}
    (hm : .alias name target ∈ p) (hd : p.Denotes target ty) :
    ∃ a', a.resolveAlias name.lexeme = (some ty, [], a') ∧ a'.Right p := by
  rw [resolveAlias_nameOf h.mirrors hm]
  exact resolve_of_denotes h 0 ((denotes_nameOf_iff h.mirrors hm ty).mpr hd)

theorem faults_resolveAlias (h : a.Right p) {name target : Token} (hm : .alias name target ∈ p)
    (hn : ¬ ∃ ty, p.Denotes target ty) : (a.resolveAlias name.lexeme).2.1 ≠ [] := by
  rw [resolveAlias_nameOf h.mirrors hm]
  refine faults_resolve h 0 fun ⟨ty, hty⟩ => hn ⟨ty, ?_⟩
  exact (denotes_nameOf_iff h.mirrors hm ty).mp hty

end Aliases

end ThreeAddress
