import ThreeAddress.Proofs.FirstSeen

namespace ThreeAddress

section
variable {α : Type} {r : α → α → Prop} {x y : α}

/-- Where every point has at most one successor, a cycle is not left. -/
theorem reaches_back (hr : Relator.RightUnique r) (hx : Relation.TransGen r x x)
    (h : Relation.ReflTransGen r x y) : Relation.ReflTransGen r y x := by
  induction h with
  | refl => exact .refl
  | tail _ hstep ih =>
    obtain ⟨z, hz, hback⟩ := Relation.TransGen.head'_iff.mp (hx.trans_right ih)
    exact hr hz hstep ▸ hback

theorem onCycle_of_reaches (hr : Relator.RightUnique r) (hx : Relation.TransGen r x x)
    (h : Relation.ReflTransGen r x y) : Relation.TransGen r y y :=
  (hx.trans_right (reaches_back hr hx h)).trans_left h

end

namespace Aliases

/-- What is wrong with the target of an alias by itself. -/
def astray (a : Aliases) (x : String) : List Fault :=
  match a.targets[x]? with
  | some u => (a.lost u.origin u.token).toList
  | none => []

variable {targets : Std.TreeMap String AliasTarget} {a b : Aliases} {p : Program} {x y : String}

theorem rightUnique_next : Relator.RightUnique (Next targets) := by
  rintro x y z ⟨u, hu, -, rfl⟩ ⟨v, hv, -, rfl⟩
  obtain rfl := Option.some.inj (hu.symm.trans hv)
  rfl

theorem Next.mem_targets (h : Next targets x y) : x ∈ targets := by
  obtain ⟨u, hu, -⟩ := h
  exact Mirrors.mem_targets hu

theorem OnCycle.mem_targets (h : OnCycle targets x) : x ∈ targets := by
  obtain ⟨y, hstep, -⟩ := Relation.TransGen.head'_iff.mp h
  exact hstep.mem_targets

namespace Trail

variable {start u : AliasTarget} {xs : List String} (h : Trail targets start xs u)
include h

/-- A way starts with the name that it starts from. -/
theorem start_mem (hne : xs ≠ []) : start.token.lexeme ∈ xs := by
  induction h with
  | nil => exact absurd rfl hne
  | cons h _ _ ih =>
    cases h with
    | nil => exact List.mem_cons_self
    | cons => exact List.mem_cons_of_mem _ (ih (List.cons_ne_nil _ _))

theorem reaches (hk : Ty.ofKind? u.token.kind = none) :
    Reaches targets start.token.lexeme u.token.lexeme := by
  induction h with
  | nil => exact .refl
  | cons _ hu hv ih => exact (ih hu).tail ⟨_, hv, hk, rfl⟩

/-- What is next to an alias of the way is on the way or at its end. -/
theorem next (hx : x ∈ xs) (hxy : Next targets x y) :
    y ∈ xs ∨ (Ty.ofKind? u.token.kind = none ∧ y = u.token.lexeme) := by
  induction h with
  | nil => cases hx
  | cons _ _ hv ih =>
    rcases List.mem_cons.mp hx with rfl | hx
    · obtain ⟨v, hv', hk, rfl⟩ := hxy
      obtain rfl := Option.some.inj (hv.symm.trans hv')
      exact .inr ⟨hk, rfl⟩
    · rcases ih hx with hy | ⟨-, rfl⟩
      · exact .inl (List.mem_cons_of_mem _ hy)
      · exact .inl List.mem_cons_self

/-- A way along a cycle goes on. -/
theorem end_of_onCycle (hx : x ∈ xs) (hc : OnCycle targets x) :
    Ty.ofKind? u.token.kind = none ∧ Reaches targets x u.token.lexeme := by
  cases h with
  | nil => cases hx
  | @cons xs w _ h hw hv =>
    have hreach : Reaches targets x w.token.lexeme := by
      rcases List.mem_cons.mp hx with rfl | hx
      · exact .refl
      · exact (h.transGen hw x hx).to_reflTransGen
    have hcycle := onCycle_of_reaches rightUnique_next hc hreach
    obtain ⟨z, ⟨v, hv', hk, -⟩, -⟩ := Relation.TransGen.head'_iff.mp hcycle
    obtain rfl := Option.some.inj (hv.symm.trans hv')
    exact ⟨hk, hreach.tail ⟨_, hv, hk, rfl⟩⟩

end Trail

/-- Only the end of a way can be wrong by itself. -/
theorem Trail.astray_eq (hm : a.Mirrors p) {start u : AliasTarget} {xs : List String}
    (h : Trail a.targets start xs u) :
    xs.flatMap a.astray ++ (a.lost start.origin start.token).toList =
      (a.lost u.origin u.token).toList := by
  induction h with
  | nil => rfl
  | @cons xs u v _ hu hv ih =>
    have hown : a.astray u.token.lexeme = (a.lost v.origin v.token).toList := by
      rw [astray, hv]
    rw [List.flatMap_cons, List.append_assoc, ih, hown,
      lost_of_alias hm _ hu (Mirrors.mem_targets hv)]
    exact List.append_nil _

/-- What walks through the aliases of `b` leave behind: the aliases that are done, and one alias of
every cycle among them. -/
structure Progress (b a : Aliases) (done cycles : List String) : Prop where
  symbols : a.symbols = b.symbols
  targets : a.targets = b.targets
  known : ∀ x, (a.known[x]?).isSome = true ↔ x ∈ done
  nodup : done.Nodup
  aliases : ∀ x ∈ done, x ∈ b.targets
  closed : ∀ x ∈ done, ∀ y, Next b.targets x y → y ∈ b.targets → y ∈ done
  right : ∀ x o, a.known[x]? = some o → ∀ ty, o = some ty ↔ Stands b.targets x ty
  cyclic : ∀ x ∈ cycles, x ∈ done ∧ OnCycle b.targets x
  covered : ∀ x ∈ done, OnCycle b.targets x → ∃ y ∈ cycles, Reaches b.targets x y
  apart : cycles.Pairwise fun x y => ¬ Reaches b.targets x y ∧ ¬ Reaches b.targets y x

theorem progress_start (h : b.known = {}) : b.Progress b [] [] where
  symbols := rfl
  targets := rfl
  known x := by simp [h]
  nodup := List.nodup_nil
  aliases := List.forall_mem_nil _
  closed := List.forall_mem_nil _
  right x o ho := by simp [h] at ho
  cyclic := List.forall_mem_nil _
  covered := List.forall_mem_nil _
  apart := .nil

namespace Progress

variable {done cycles : List String} (h : b.Progress a done cycles)
include h

theorem mirrors (hm : b.Mirrors p) : a.Mirrors p := by
  obtain ⟨symbols, targets, known⟩ := a
  obtain rfl : symbols = b.symbols := h.symbols
  obtain rfl : targets = b.targets := h.targets
  exact ⟨hm.named, hm.isType, hm.declared, hm.sound, hm.complete⟩

theorem lost_eq (i : Nat) (t : Token) : a.lost i t = b.lost i t := by
  rw [lost, lost, h.symbols]

theorem cycleAt_eq (x : String) : a.cycleAt x = b.cycleAt x := by
  rw [cycleAt, cycleAt, h.symbols, h.targets]

/-- From what is done no alias outside is reached. -/
theorem mem_of_reaches (hx : x ∈ done) (hxy : Reaches b.targets x y) (hy : y ∈ b.targets) :
    y ∈ done := by
  induction hxy using Relation.ReflTransGen.head_induction_on with
  | refl => exact hx
  | @head x z hstep hrest ih =>
    refine ih (h.closed x hx z hstep ?_)
    rcases Relation.ReflTransGen.cases_head hrest with rfl | ⟨w, hz, -⟩
    · exact hy
    · exact hz.mem_targets

theorem not_mem_done (hx : a.known[x]? = none) : x ∉ done := by
  intro hmem
  have hsome := (h.known x).mpr hmem
  rw [hx] at hsome
  cases hsome

section
variable (hm : b.Mirrors p) {start u : AliasTarget} {path : List String} {ty : Option Ty}
  {f : Option Fault} (ht : Trail b.targets start path u) (he : a.Ends path u ty f)
include hm he

/-- A walk that ends at an alias has passed it, or an earlier one has. -/
theorem passed_of_ends (hk : Ty.ofKind? u.token.kind = none) (hx : u.token.lexeme ∈ b.targets) :
    u.token.lexeme ∈ path ++ done := by
  rw [List.mem_append]
  cases he with
  | builtin hb =>
    rw [hk] at hb
    cases hb
  | lost hlost => exact absurd (h.targets ▸ hx) (of_lost (h.mirrors hm) hlost).2
  | known _ _ ho => exact .inr ((h.known _).mp (by rw [ho]; rfl))
  | cycle _ hmem => exact .inl hmem

include ht

/-- The type at the end of a walk. -/
theorem type_of_ends (ty' : Ty) : ty = some ty' ↔ ∃ n, Leads b.targets n u.token ty' := by
  have hfaithful : a.Faithful := by
    intro x o ho ty
    rw [h.targets]
    exact h.right x o ho ty
  rw [← h.targets] at ht ⊢
  exact he.type_iff (h.mirrors hm) ht hfaithful ty'

/-- A walk complains about its end, unless it closes a cycle that all of it leads to. -/
theorem cycle_of_ends (hnew : ∀ x ∈ path, a.known[x]? = none) :
    (f = b.lost u.origin u.token ∧ ∀ x ∈ path, ¬ OnCycle b.targets x) ∨
      ∃ y ∈ path, f.toList = b.cycleAt y ∧ b.lost u.origin u.token = none ∧
        OnCycle b.targets y ∧ ∀ x ∈ path, Reaches b.targets x y := by
  have hend (x : String) (hx : x ∈ path) (hc : OnCycle b.targets x) :
      Ty.ofKind? u.token.kind = none ∧ OnCycle b.targets u.token.lexeme ∧
        Reaches b.targets u.token.lexeme x := by
    obtain ⟨hk, hreach⟩ := ht.end_of_onCycle hx hc
    exact ⟨hk, onCycle_of_reaches rightUnique_next hc hreach,
      reaches_back rightUnique_next hc hreach⟩
  cases he with
  | builtin hb =>
    refine .inl ⟨(lost_of_builtin _ hb).symm, fun x hx hc => ?_⟩
    rw [(hend x hx hc).1] at hb
    cases hb
  | lost hlost =>
    refine .inl ⟨by rw [← h.lost_eq, hlost], fun x hx hc => ?_⟩
    exact (of_lost (h.mirrors hm) hlost).2 (h.targets ▸ (hend x hx hc).2.1.mem_targets)
  | known hk hx ho =>
    refine .inl ⟨(lost_of_alias hm _ hk (h.targets ▸ hx)).symm, fun x hx hc => ?_⟩
    have hdone : u.token.lexeme ∈ done := (h.known _).mp (by rw [ho]; rfl)
    exact h.not_mem_done (hnew x hx) (h.mem_of_reaches hdone (hend x hx hc).2.2 hc.mem_targets)
  | cycle hk hx hcycle =>
    have hall := ht.transGen hk
    refine .inr ⟨_, hx, by rw [← h.cycleAt_eq, hcycle]; rfl, ?_, hall _ hx, fun x hx => ?_⟩
    · exact lost_of_alias hm _ hk (ht.mem_targets hx)
    · exact (hall x hx).to_reflTransGen

/-- A walk adds its way to what is done, and a cycle if it closes one. -/
theorem learn (hnodup : path.Nodup) (hnew : ∀ x ∈ path, a.known[x]? = none) :
    ∃ new, b.Progress (a.learn ⟨ty, f, path⟩) (path ++ done) (new ++ cycles) ∧
      f.toList = new.flatMap b.cycleAt ++ (b.lost u.origin u.token).toList := by
  have hknown (x : String) : (a.learn ⟨ty, f, path⟩).known[x]? =
      if x ∈ path then some ty else a.known[x]? := getElem?_learn _ x
  have hdone : ∀ x, ((a.learn ⟨ty, f, path⟩).known[x]?).isSome = true ↔ x ∈ path ++ done := by
    intro x
    rw [hknown, List.mem_append, ← h.known]
    by_cases hx : x ∈ path
    · simp [hx]
    · simp [hx]
  have hdisjoint : path.Disjoint done := fun x hx hx' => h.not_mem_done (hnew x hx) hx'
  have hdistinct : (path ++ done).Nodup :=
    List.nodup_append.mpr ⟨hnodup, h.nodup, fun x hx y hy hxy => hdisjoint hx (hxy ▸ hy)⟩
  have haliases : ∀ x ∈ path ++ done, x ∈ b.targets :=
    List.forall_mem_append.mpr ⟨fun x hx => ht.mem_targets hx, h.aliases⟩
  have hclosed : ∀ x ∈ path ++ done, ∀ y, Next b.targets x y → y ∈ b.targets →
      y ∈ path ++ done := by
    intro x hx y hxy hy
    rcases List.mem_append.mp hx with hx | hx
    · rcases ht.next hx hxy with hmem | ⟨hk, rfl⟩
      · exact List.mem_append_left _ hmem
      · exact h.passed_of_ends hm he hk hy
    · exact List.mem_append_right _ (h.closed x hx y hxy hy)
  have hright : ∀ x o, (a.learn ⟨ty, f, path⟩).known[x]? = some o →
      ∀ ty', o = some ty' ↔ Stands b.targets x ty' := by
    intro x o ho ty'
    rw [hknown] at ho
    split at ho
    · next hx =>
      cases ho
      rw [h.type_of_ends hm ht he, (ht.leads_iff ty').2 x hx]
    · exact h.right x o ho ty'
  rcases h.cycle_of_ends hm ht he hnew with ⟨hf, hnone⟩ | ⟨y, hy, hf, hlost, hcycle, hreach⟩
  · refine ⟨[], ⟨h.symbols, h.targets, hdone, hdistinct, haliases, hclosed,
      hright, fun x hx => ?_, ?_, h.apart⟩, by rw [hf]; rfl⟩
    · obtain ⟨hmem, hc⟩ := h.cyclic x hx
      exact ⟨List.mem_append_right _ hmem, hc⟩
    · exact List.forall_mem_append.mpr ⟨fun x hx hc => absurd hc (hnone x hx), h.covered⟩
  · -- An old cycle and the new one do not reach each other: what is done is closed.
    have hnot (x : String) (hx : x ∈ cycles) : ¬ Reaches b.targets x y := fun hxy =>
      hdisjoint hy (h.mem_of_reaches (h.cyclic x hx).1 hxy hcycle.mem_targets)
    refine ⟨[y], ⟨h.symbols, h.targets, hdone, hdistinct, haliases, hclosed,
      hright, ?_, ?_, ?_⟩, by rw [hf, hlost]; simp⟩
    · refine List.forall_mem_cons.mpr ⟨⟨List.mem_append_left _ hy, hcycle⟩, fun x hx => ?_⟩
      obtain ⟨hmem, hc⟩ := h.cyclic x hx
      exact ⟨List.mem_append_right _ hmem, hc⟩
    · refine List.forall_mem_append.mpr ⟨fun x hx _ => ⟨y, List.mem_cons_self, hreach x hx⟩, ?_⟩
      intro x hx hc
      obtain ⟨z, hz, hxz⟩ := h.covered x hx hc
      exact ⟨z, List.mem_cons_of_mem _ hz, hxz⟩
    · refine List.pairwise_cons.mpr ⟨fun x hx => ⟨fun hyx => ?_, hnot x hx⟩, h.apart⟩
      exact hnot x hx (reaches_back rightUnique_next hcycle hyx)

end

section
variable (hm : b.Mirrors p)
include hm

/-- Resolving a token: what is added to what is done, the complaints, and the type. -/
theorem resolve (i : Nat) (t : Token) :
    ∃ path new, b.Progress (a.resolve i t).2.2 (path ++ done) (new ++ cycles) ∧
      (a.resolve i t).2.1 =
        new.flatMap b.cycleAt ++ path.flatMap b.astray ++ (b.lost i t).toList ∧
      (∀ ty, (a.resolve i t).1 = some ty ↔ p.Denotes t ty) ∧
      (Ty.ofKind? t.kind = none → t.lexeme ∈ b.targets → t.lexeme ∈ path ++ done) := by
  obtain ⟨u, ht, hnodup, hnew, he⟩ := exists_ends (h.mirrors hm) i t
  rw [Aliases.resolve]
  generalize a.walk (a.targets.size + 1) .empty i t = w at ht hnodup hnew he ⊢
  obtain ⟨ty, f, path⟩ := w
  rw [h.targets] at ht
  obtain ⟨new, hprogress, hf⟩ := h.learn hm ht he hnodup hnew
  refine ⟨path, new, hprogress, ?_, fun ty' => ?_, fun hk hx => ?_⟩
  · rw [List.append_assoc, ht.astray_eq hm]
    exact hf
  · rw [h.type_of_ends hm ht he, ← (ht.leads_iff ty').1]
    constructor
    · rintro ⟨n, hl⟩
      exact denotes_of_leads hm hl
    · exact leads_of_denotes hm
  · cases path with
    | nil =>
      cases ht
      exact h.passed_of_ends hm he hk hx
    | cons y ys => exact List.mem_append_left _ (ht.start_mem (List.cons_ne_nil _ _))

end

end Progress

theorem stands_of_reaches {ty : Ty} (h : Reaches targets x y) (hs : Stands targets x ty) :
    Stands targets y ty := by
  rcases Relation.reflTransGen_iff_eq_or_transGen.mp h with rfl | h
  · exact hs
  · obtain ⟨u, n, hu, hl⟩ := hs
    obtain ⟨v, m, -, hv, hl⟩ := leads_of_reaches h hu hl
    exact ⟨v, m, hv, hl⟩

/-- A token has no type exactly when its way ends at a name that is no alias, or on a cycle. -/
theorem not_denotes_iff (hm : b.Mirrors p) (hknown : b.known = {}) (t : Token) :
    (¬ ∃ ty, p.Denotes t ty) ↔ Ty.ofKind? t.kind = none ∧
      ∃ y, Reaches b.targets t.lexeme y ∧ (y ∉ b.targets ∨ OnCycle b.targets y) := by
  constructor
  · intro hnone
    have hk : Ty.ofKind? t.kind = none := by
      by_contra hne
      obtain ⟨ty, hk⟩ := Option.ne_none_iff_exists'.mp hne
      exact hnone ⟨ty, .builtin hk⟩
    refine ⟨hk, ?_⟩
    obtain ⟨u, ht, -, -, he⟩ := exists_ends hm 0 t
    generalize b.walk (b.targets.size + 1) .empty 0 t = w at ht he
    obtain ⟨ty, f, path⟩ := w
    cases he with
    | @builtin ty hb =>
      obtain ⟨n, hl⟩ := (ht.leads_iff ty).1.mpr ⟨0, .builtin hb⟩
      exact absurd ⟨ty, denotes_of_leads hm hl⟩ hnone
    | lost hlost =>
      obtain ⟨hu, hx⟩ := of_lost hm hlost
      exact ⟨_, ht.reaches hu, .inl hx⟩
    | known _ _ ho => simp [hknown] at ho
    | cycle hu hx => exact ⟨_, ht.reaches hu, .inr (ht.transGen hu _ hx)⟩
  · rintro ⟨hk, y, hreach, hy⟩ ⟨ty, hd⟩
    have hstands := stands_of_reaches hreach ((stands_iff_leads hk ty).mpr (leads_of_denotes hm hd))
    rcases hy with hy | hy
    · obtain ⟨u, -, hu, -⟩ := hstands
      exact hy (Mirrors.mem_targets hu)
    · exact hy.not_stands (a := b) ty hstands

/-- Complaints are those about new cycles, about targets of new aliases, and others. -/
def Accounts (b : Aliases) (path new : List String) (own faults : List Fault) : Prop :=
  faults.Perm (new.flatMap b.cycleAt ++ path.flatMap b.astray ++ own)

/-- What is wrong with tokens by themselves. -/
def allLost (b : Aliases) (i : Nat) (ts : List Token) : List Fault :=
  ts.flatMap fun t => (b.lost i t).toList

theorem Accounts.append {path new path' new' : List String} {own own' faults faults' : List Fault}
    (h : b.Accounts path new own faults) (h' : b.Accounts path' new' own' faults') :
    b.Accounts (path' ++ path) (new' ++ new) (own ++ own') (faults ++ faults') := by
  refine List.perm_iff_count.mpr fun f => ?_
  have hcount := List.perm_iff_count.mp h f
  have hcount' := List.perm_iff_count.mp h' f
  simp only [List.flatMap_append, List.count_append] at hcount hcount' ⊢
  omega

theorem Accounts.others {path new : List String} {own faults : List Fault}
    (h : b.Accounts path new own faults) (more : List Fault) :
    b.Accounts path new (own ++ more) (faults ++ more) := by
  have hmore : b.Accounts [] [] more more := List.Perm.refl more
  exact h.append hmore

namespace Progress

variable {done cycles : List String} (hm : b.Mirrors p)
include hm

/-- Resolving one token after the other. -/
theorem resolveAll (h : b.Progress a done cycles) (i : Nat) (ts : List Token) :
    ∃ path new, b.Progress (a.resolveAll i ts).2.2 (path ++ done) (new ++ cycles) ∧
      b.Accounts path new (b.allLost i ts) (a.resolveAll i ts).2.1 := by
  induction ts generalizing a done cycles with
  | nil => exact ⟨[], [], h, List.Perm.refl []⟩
  | cons t ts ih =>
    obtain ⟨path, new, h, hf, -⟩ := h.resolve hm i t
    obtain ⟨path', new', h', hf'⟩ := ih h
    refine ⟨path' ++ path, new' ++ new, ?_, ?_⟩
    · rw [List.append_assoc, List.append_assoc]
      exact h'
    · exact Accounts.append (List.Perm.of_eq hf) hf'

end Progress

/-- What is wrong with an accepted declaration by itself. The target of an alias is not in it: the
walk that passes the alias complains about it. -/
def ownFaults (b : Aliases) (types : Token → Option Ty) (d : Accepted) : List Fault :=
  match d.declaration with
  | .global name type init =>
    (b.lost d.origin type).toList ++
      (Resolution.checkInit name (types type) init).map (⟨d.origin, ·⟩)
  | .function _ ret params => b.allLost d.origin (ret :: params)
  | _ => []

end Aliases

namespace Resolution

open Aliases

variable {b : Aliases} {p : Program} {types : Token → Option Ty} {done cycles : List String}

/-- What a step finds out: the types of what is declared, but not those of a parameter. -/
structure Finds (types : Token → Option Ty) (d : Accepted) (found : ResolvedTypes) : Prop where
  key : found.key = d.declaration.key
  type : d.declaration.isParam = false → found.ty = types d.declaration.type

/-- One declaration: its complaints are accounted for, and an alias is done then. -/
theorem step_progress (hm : b.Mirrors p) (htypes : ∀ t ty, types t = some ty ↔ p.Denotes t ty)
    {r : Resolution} (h : b.Progress r.aliases done cycles) {d : Accepted}
    (hd : ∀ name target, d.declaration = .alias name target → .alias name target ∈ p) :
    ∃ path new, b.Progress (r.step d).2.2.aliases (path ++ done) (new ++ cycles) ∧
      b.Accounts path new (b.ownFaults types d) (r.step d).2.1 ∧ Finds types d (r.step d).1 ∧
      (d.declaration.kind = .type → d.declaration.key ∈ path ++ done) := by
  have hsame {o : Option Ty} {t u : Token} (ho : ∀ ty, o = some ty ↔ p.Denotes t ty)
      (htu : ∀ ty, p.Denotes t ty ↔ p.Denotes u ty) : o = types u := by
    ext ty
    rw [ho, htypes, htu]
  obtain ⟨i, d⟩ := d
  cases d with
  | «alias» name target =>
    have halias := hd name target rfl
    obtain ⟨u, hu, -⟩ := hm.complete halias
    have hx : (nameOf name).lexeme ∈ b.targets := Mirrors.mem_targets hu
    obtain ⟨path, new, h', hf, hty, hmem⟩ := h.resolve hm 0 (nameOf name)
    simp only [step, resolveAlias_nameOf (h.mirrors hm) halias]
    refine ⟨path, new, h', ?_, ⟨rfl, fun _ => hsame hty (denotes_nameOf_iff hm halias)⟩,
      fun _ => hmem rfl hx⟩
    rw [lost_of_alias hm 0 rfl hx] at hf
    exact List.Perm.of_eq hf
  | «global» name type init =>
    obtain ⟨path, new, h', hf, hty, -⟩ := h.resolve hm i type
    have htype := hsame hty fun _ => Iff.rfl
    refine ⟨path, new, h', ?_, ⟨rfl, fun _ => htype⟩, fun hk => by cases hk⟩
    simp only [step, htype]
    exact Accounts.others (List.Perm.of_eq hf) _
  | function name ret params =>
    obtain ⟨path, new, h, hf, hty, -⟩ := h.resolve hm i ret
    obtain ⟨path', new', h', hf'⟩ := h.resolveAll hm i params
    refine ⟨path' ++ path, new' ++ new, ?_, ?_, ⟨rfl, fun _ => hsame hty fun _ => Iff.rfl⟩,
      fun hk => by cases hk⟩
    · rw [List.append_assoc, List.append_assoc]
      exact h'
    · exact Accounts.append (List.Perm.of_eq hf) hf'
  | param owner slot name type =>
    refine ⟨[], [], h, List.Perm.refl [], ⟨rfl, fun hp => ?_⟩, fun hk => by cases hk⟩
    cases hp

/-- All declarations. -/
theorem steps_progress (hm : b.Mirrors p) (htypes : ∀ t ty, types t = some ty ↔ p.Denotes t ty)
    {r : Resolution} (h : b.Progress r.aliases done cycles) {ds : List Accepted}
    (hds : ∀ d ∈ ds, ∀ name target, d.declaration = .alias name target → .alias name target ∈ p) :
    ∃ path new a, b.Progress a (path ++ done) (new ++ cycles) ∧
      b.Accounts path new (ds.flatMap (b.ownFaults types)) ((r.steps ds).flatMap (·.2)) ∧
      List.Forall₂ (fun d x => Finds types d x.1) ds (r.steps ds) ∧
      ∀ d ∈ ds, d.declaration.kind = .type → d.declaration.key ∈ path ++ done := by
  induction ds generalizing r done cycles with
  | nil => exact ⟨[], [], r.aliases, h, List.Perm.refl [], .nil, List.forall_mem_nil _⟩
  | cons d ds ih =>
    obtain ⟨hd, hds⟩ := List.forall_mem_cons.mp hds
    obtain ⟨path, new, h, hf, hfinds, hdone⟩ := step_progress hm htypes h hd
    obtain ⟨path', new', a, h', hf', hfinds', hdone'⟩ := ih h hds
    refine ⟨path' ++ path, new' ++ new, a, ?_, ?_, .cons hfinds hfinds', ?_⟩
    · rw [List.append_assoc, List.append_assoc]
      exact h'
    · exact Accounts.append hf hf'
    · rw [List.append_assoc]
      exact List.forall_mem_cons.mpr ⟨fun hk => List.mem_append_right _ (hdone hk), hdone'⟩

end Resolution

end ThreeAddress
