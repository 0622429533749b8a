import Mathlib.Data.List.Forall2

namespace ThreeAddress

variable {α β ε : Type}

theorem bind_eq_ok {x : Except ε α} {f : α → Except ε β} {b : β} :
    x >>= f = .ok b ↔ ∃ a, x = .ok a ∧ f a = .ok b := by
  cases x with
  | error e => exact ⟨nofun, nofun⟩
  | ok a => exact ⟨fun h => ⟨a, rfl, h⟩, fun ⟨_, ha, h⟩ => by cases ha; exact h⟩

theorem map_eq_ok {x : Except ε α} {f : α → β} {b : β} :
    x.map f = .ok b ↔ ∃ a, x = .ok a ∧ f a = b := by
  cases x with
  | error e => exact ⟨nofun, nofun⟩
  | ok a => exact ⟨fun h => ⟨a, rfl, Except.ok.inj h⟩,
      fun ⟨_, ha, h⟩ => by cases ha; exact congrArg _ h⟩

theorem map_eq_error {x : Except ε α} {f : α → β} {e : ε} : x.map f = .error e ↔ x = .error e := by
  cases x <;> simp [Except.map]

theorem toOption_eq_some {x : Except ε α} {a : α} : x.toOption = some a ↔ x = .ok a := by
  cases x with
  | error e => exact ⟨nofun, nofun⟩
  | ok b => exact ⟨fun h => congrArg _ (Option.some.inj h), fun h => congrArg _ (Except.ok.inj h)⟩

theorem forall₂_of_mapM {f : α → Except ε β} {xs : List α} {ys : List β}
    (h : xs.mapM f = .ok ys) : List.Forall₂ (fun x y => f x = .ok y) xs ys := by
  induction xs generalizing ys with
  | nil =>
    cases h
    exact .nil
  | cons x xs ih =>
    rw [List.mapM_cons] at h
    obtain ⟨y, hx, h⟩ := bind_eq_ok.mp h
    obtain ⟨zs, hs, h⟩ := bind_eq_ok.mp h
    cases h
    exact .cons hx (ih hs)

theorem mapM_ok {f : α → Except ε β} {xs : List α} (h : ∀ x ∈ xs, ∃ y, f x = .ok y) :
    ∃ ys, xs.mapM f = .ok ys := by
  induction xs with
  | nil => exact ⟨[], rfl⟩
  | cons x xs ih =>
    obtain ⟨⟨y, hy⟩, hs⟩ := List.forall_mem_cons.mp h
    obtain ⟨ys, hys⟩ := ih hs
    exact ⟨y :: ys, by rw [List.mapM_cons, hy, hys]; rfl⟩

/-- Steps in another order give the results in another order. -/
theorem mapM_perm {f : α → Except ε β} {xs xs' : List α} {ys : List β} (hperm : xs.Perm xs')
    (h : xs.mapM f = .ok ys) : ∃ ys', xs'.mapM f = .ok ys' ∧ ys.Perm ys' := by
  induction hperm generalizing ys with
  | nil => exact ⟨ys, h, .refl ys⟩
  | cons x _ ih =>
    rw [List.mapM_cons] at h
    obtain ⟨y, hx, h⟩ := bind_eq_ok.mp h
    obtain ⟨zs, hs, h⟩ := bind_eq_ok.mp h
    cases h
    obtain ⟨zs', hs', hzs⟩ := ih hs
    exact ⟨y :: zs', by rw [List.mapM_cons, hx, hs']; rfl, hzs.cons y⟩
  | swap x x' xs =>
    simp only [List.mapM_cons] at h
    obtain ⟨y', hx', h⟩ := bind_eq_ok.mp h
    obtain ⟨zs', hs', h⟩ := bind_eq_ok.mp h
    obtain ⟨y, hx, hs'⟩ := bind_eq_ok.mp hs'
    obtain ⟨zs, hs, hs'⟩ := bind_eq_ok.mp hs'
    cases hs'
    cases h
    refine ⟨y :: y' :: zs, ?_, .swap y y' zs⟩
    simp only [List.mapM_cons, hx, hx', hs]
    rfl
  | trans _ _ ih ih' =>
    obtain ⟨zs, hzs, hyz⟩ := ih h
    obtain ⟨ws, hws, hzw⟩ := ih' hzs
    exact ⟨ws, hws, hyz.trans hzw⟩

/-- Steps on changed values that give changed results. -/
theorem mapM_map_ok {α' β' ε' : Type} {f : α → Except ε β} {g : α' → Except ε' β'} {a : α → α'}
    {b : β → β'} (hfg : ∀ x y, f x = .ok y → g (a x) = .ok (b y)) {xs : List α} {ys : List β}
    (h : xs.mapM f = .ok ys) : (xs.map a).mapM g = .ok (ys.map b) := by
  induction xs generalizing ys with
  | nil =>
    cases h
    rfl
  | cons x xs ih =>
    rw [List.mapM_cons] at h
    obtain ⟨y, hx, h⟩ := bind_eq_ok.mp h
    obtain ⟨zs, hs, h⟩ := bind_eq_ok.mp h
    cases h
    rw [List.map_cons, List.mapM_cons, hfg x y hx, ih hs]
    rfl

/-- Results that are no errors come first. -/
theorem mapM_id_append (xs : List α) (rest : List (Except ε α)) :
    (xs.map Except.ok ++ rest).mapM id = (rest.mapM id).map (xs ++ ·) := by
  induction xs with
  | nil => cases h : rest.mapM id <;> simp [h, Except.map]
  | cons x xs ih =>
    rw [List.map_cons, List.cons_append, List.mapM_cons, ih]
    cases rest.mapM id <;> rfl

theorem mapError_eq_ok {δ : Type} {x : Except ε α} {f : ε → δ} {a : α} :
    x.mapError f = .ok a ↔ x = .ok a := by
  cases x with
  | error e => exact ⟨nofun, nofun⟩
  | ok b => exact ⟨fun h => congrArg _ (Except.ok.inj h), fun h => congrArg _ (Except.ok.inj h)⟩

theorem exists_of_mem_left {R : α → β → Prop} {xs : List α} {ys : List β}
    (h : List.Forall₂ R xs ys) {x : α} (hx : x ∈ xs) : ∃ y ∈ ys, R x y := by
  induction h with
  | nil => cases hx
  | cons hr _ ih =>
    rcases List.mem_cons.mp hx with rfl | hx
    · exact ⟨_, List.mem_cons_self, hr⟩
    · obtain ⟨y, hy, hr⟩ := ih hx
      exact ⟨y, List.mem_cons_of_mem _ hy, hr⟩

theorem mapM_eq_some {f : α → Option β} {xs : List α} {ys : List β} :
    xs.mapM f = some ys ↔ List.Forall₂ (fun x y => f x = some y) xs ys := by
  induction xs generalizing ys with
  | nil => simp [eq_comm]
  | cons x xs ih =>
    rw [List.mapM_cons, Option.bind_eq_bind, Option.bind_eq_some_iff]
    constructor
    · rintro ⟨y, hy, h⟩
      obtain ⟨zs, hzs, h⟩ := Option.bind_eq_some_iff.mp h
      cases h
      exact .cons hy (ih.mp hzs)
    · rintro (_ | ⟨hy, hys⟩)
      exact ⟨_, hy, by rw [ih.mpr hys]; rfl⟩

theorem forall_bne_of_not_mem [BEq α] [LawfulBEq α] {x : α} {l : List α} (h : x ∉ l) :
    ∀ y ∈ l, (y != x) = true := by
  intro y hy
  rw [bne_iff_ne]
  rintro rfl
  exact h hy

theorem getElem?_concat_eq_some {xs : List α} {x y : α} {i : Nat} :
    (xs ++ [x])[i]? = some y ↔ xs[i]? = some y ∨ i = xs.length ∧ x = y := by
  by_cases hlt : i < xs.length
  · rw [List.getElem?_append_left hlt]
    simp [Nat.ne_of_lt hlt]
  · have hnone : xs[i]? = none := List.getElem?_eq_none (by omega)
    rw [List.getElem?_append_right (by omega), hnone]
    by_cases hi : i = xs.length
    · simp [hi]
    · have hlong : [x].length ≤ i - xs.length := by
        simp only [List.length_singleton]
        omega
      simp [hi, List.getElem?_eq_none hlong]

theorem intercalate_cons (sep x : List α) (xs : List (List α)) :
    sep.intercalate (x :: xs) = x ++ xs.flatMap (sep ++ ·) := by
  induction xs generalizing x with
  | nil => simp
  | cons y ys ih =>
    rw [List.intercalate_cons_cons, ih, List.flatMap_cons, List.append_assoc, List.append_assoc]

/-- What brings nothing may be left out. -/
theorem flatMap_filter {f : α → List β} {q : α → Bool} {xs : List α}
    (h : ∀ x ∈ xs, q x = false → f x = []) : (xs.filter q).flatMap f = xs.flatMap f := by
  induction xs with
  | nil => rfl
  | cons x xs ih =>
    obtain ⟨hx, hxs⟩ := List.forall_mem_cons.mp h
    cases hq : q x with
    | true => rw [List.filter_cons_of_pos hq, List.flatMap_cons, List.flatMap_cons, ih hxs]
    | false =>
      rw [List.filter_cons_of_neg (by rw [hq]; exact Bool.false_ne_true), List.flatMap_cons, hx hq,
        ih hxs]
      rfl

/-- Members that correspond bring the same. -/
theorem flatMap_congr_forall₂ {γ : Type} {R : α → β → Prop} {F : α → List γ} {G : β → List γ}
    {xs : List α} {ys : List β} (h : List.Forall₂ R xs ys)
    (hFG : ∀ x y, y ∈ ys → R x y → F x = G y) : xs.flatMap F = ys.flatMap G := by
  induction h with
  | nil => rfl
  | @cons x y xs ys hxy _ ih =>
    rw [List.flatMap_cons, List.flatMap_cons, hFG x y List.mem_cons_self hxy,
      ih fun x' y' hy' => hFG x' y' (List.mem_cons_of_mem y hy')]

/-- Lists that are alike member by member. -/
theorem forall₂_of_like {γ δ : Type} {R S : α → β → Prop} {f : α → γ} {g : β → δ}
    (hstep : ∀ a b a' b', R a b → f a = f a' → g b = g b' → S a' b') {as as' : List α}
    {bs bs' : List β} (h : List.Forall₂ R as bs) (has : as.map f = as'.map f)
    (hbs : bs.map g = bs'.map g) : List.Forall₂ S as' bs' := by
  induction h generalizing as' bs' with
  | nil =>
    obtain rfl := List.map_eq_nil_iff.mp has.symm
    obtain rfl := List.map_eq_nil_iff.mp hbs.symm
    exact .nil
  | cons hab _ ih =>
    obtain ⟨a', as', rfl, ha, has⟩ := List.map_eq_cons_iff.mp has.symm
    obtain ⟨b', bs', rfl, hb, hbs⟩ := List.map_eq_cons_iff.mp hbs.symm
    exact .cons (hstep _ _ _ _ hab ha.symm hb.symm) (ih has.symm hbs.symm)

/-- Numbered members, zipped with what belongs to them, stay in order. -/
theorem forall₂_zipIdx {γ : Type} {R : α → β → Prop} {S : α → γ → Prop}
    {g : (α × Nat) × β → γ} {xs : List α} {ys : List β} (h : List.Forall₂ R xs ys) (k : Nat)
    (hS : ∀ i x y, xs[i]? = some x → R x y → S x (g ((x, k + i), y))) :
    List.Forall₂ S xs (((xs.zipIdx k).zip ys).map g) := by
  induction h generalizing k with
  | nil => exact .nil
  | cons h _ ih =>
    refine .cons (hS 0 _ _ rfl h) (ih (k + 1) fun i x y hx hr => ?_)
    have := hS (i + 1) x y hx hr
    rwa [Nat.add_comm i 1, ← Nat.add_assoc] at this

/-- The number, among all members, of a member that is counted without the one at `n`. -/
def skipAt (n i : Nat) : Nat := if i < n then i else i + 1

theorem skipAt_injective (n : Nat) : Function.Injective (skipAt n) := by
  intro i j h
  unfold skipAt at h
  split at h <;> split at h <;> omega

/-- The numbers of the members that stay when one is taken out. -/
theorem zipIdx_eraseIdx (xs : List α) (i k : Nat) (hi : i < xs.length) :
    (xs.zipIdx k).eraseIdx i = ((xs.eraseIdx i).zipIdx k).map (Prod.map id (skipAt (k + i))) := by
  induction xs generalizing i k with
  | nil => rfl
  | cons x xs ih =>
    cases i with
    | zero =>
      have hshift : (xs.zipIdx k).map (Prod.map id (skipAt k)) =
          (xs.zipIdx k).map (Prod.map id (· + 1)) := by
        apply List.map_congr_left
        intro y hy
        have hk : k ≤ y.2 := List.le_snd_of_mem_zipIdx hy
        have hskip : skipAt k y.2 = y.2 + 1 := if_neg (by omega)
        simp only [Prod.map, hskip]
      rw [List.zipIdx_cons, List.eraseIdx_cons_zero, List.eraseIdx_cons_zero, List.zipIdx_succ,
        Nat.add_zero, hshift]
      rfl
    | succ i =>
      have hlt : i < xs.length := Nat.lt_of_succ_lt_succ hi
      have hsum : k + (i + 1) = k + 1 + i := by omega
      have hskip : skipAt (k + 1 + i) k = k := if_pos (by omega)
      simp only [List.zipIdx_cons, List.eraseIdx_cons_succ, List.map_cons, Prod.map_apply, id_eq,
        ih i (k + 1) hlt, hsum, hskip]

theorem filterMap_eraseIdx {f : α → Option β} {xs : List α} {i : Nat} {x : α}
    (hx : xs[i]? = some x) (hf : f x = none) : (xs.eraseIdx i).filterMap f = xs.filterMap f := by
  induction xs generalizing i with
  | nil => rfl
  | cons y xs ih =>
    cases i with
    | zero =>
      cases hx
      rw [List.eraseIdx_cons_zero, List.filterMap_cons_none hf]
    | succ i => rw [List.eraseIdx_cons_succ, List.filterMap_cons, List.filterMap_cons, ih hx]

/-- A step that succeeds can be taken out of a run, with its result. -/
theorem mapM_eraseIdx {f : α → Except ε β} {xs : List α} {i : Nat} {x : α} {y : β}
    (hx : xs[i]? = some x) (hf : f x = .ok y) :
    (xs.mapM f).map (·.eraseIdx i) = (xs.eraseIdx i).mapM f := by
  induction xs generalizing i with
  | nil => rfl
  | cons z xs ih =>
    cases i with
    | zero =>
      cases hx
      rw [List.mapM_cons, hf, List.eraseIdx_cons_zero]
      cases xs.mapM f <;> rfl
    | succ i =>
      rw [List.mapM_cons, List.eraseIdx_cons_succ, List.mapM_cons, ← ih hx]
      cases f z with
      | error e => rfl
      | ok b => cases xs.mapM f <;> rfl

/-- A run, with its results beside the numbers of the steps. -/
theorem mapM_zipIdx {γ : Type} (f : α → Except ε β) (g : (α × Nat) × β → γ) (xs : List α)
    (k : Nat) : (xs.mapM f).map (fun ys => ((xs.zipIdx k).zip ys).map g) =
      (xs.zipIdx k).mapM fun x => (f x.1).map fun y => g (x, y) := by
  induction xs generalizing k with
  | nil => rfl
  | cons x xs ih =>
    rw [List.mapM_cons, List.zipIdx_cons, List.mapM_cons, ← ih (k + 1)]
    cases f x with
    | error e => rfl
    | ok y => cases xs.mapM f <;> rfl

end ThreeAddress
