import Mathlib.Data.List.Range
import ThreeAddress.Proofs.Lowering

namespace ThreeAddress

def Operand.temp? : Operand → Option Nat
  | .temp n => some n
  | _ => none

namespace Instruction

/-- The temporary that is set. -/
def sets (x : Instruction) : List Nat := (x.result.bind Operand.temp?).toList

/-- The temporaries that are read, each as often as it is. -/
def reads (x : Instruction) : List Nat :=
  (x.arg1.bind Operand.temp?).toList ++ (x.arg2.bind Operand.temp?).toList

/-- Neither an argument nor a call. -/
def plain (x : Instruction) : Bool := x.op != .param && x.op != .call

end Instruction

namespace Code

/-- The instruction at `j` is one of the arguments directly in front of the call at `i`. -/
def Feeds (code : List Instruction) (j i : Nat) : Prop :=
  ∃ dest f m, code[i]? = some (.call dest (.name f) m) ∧ i ≤ j + m ∧ j < i

/-- Every call has exactly its arguments directly in front, and every argument has one call. -/
structure CallsFed (code : List Instruction) : Prop where
  calls : ∀ (i : Nat) (x : Instruction), code[i]? = some x → x.op = .call →
    ∃ dest f m, x = .call dest (.name f) m ∧ m ≤ i ∧
      (∀ j, i ≤ j + m → j < i → ∃ a, code[j]? = some (.param a)) ∧
      ∀ y : Instruction, m < i → code[i - m - 1]? = some y → y.op ≠ .param
  params : ∀ (j : Nat) (x : Instruction), code[j]? = some x → x.op = .param → ∃! i, Feeds code j i

/-- A temporary is read behind the instruction that sets it. -/
def ReadsBehind (code : List Instruction) : Prop :=
  ∀ i x, code[i]? = some x → ∀ n ∈ x.reads, n ∈ (code.take i).flatMap Instruction.sets

/-- A function with its parameters: nothing of another piece stands inside, and the temporaries are
those below some number. -/
structure FunctionPiece (f : String) (params : List String) (piece : List Instruction) : Prop where
  frame : ∃ body : List Instruction, piece = Instruction.func (.name f) params.length ::
      (params.map fun x => Instruction.paramIn (.name x)) ++ body ++
        [Instruction.endFunc (.name f)] ∧
    ∀ x ∈ body, x.op ∉ [.global, .func, .paramIn, .endFunc]
  temps : ∃ k, (piece.flatMap Instruction.sets).Perm (List.range k) ∧
    (piece.flatMap Instruction.reads).Perm (List.range k)
  order : ReadsBehind piece

end Code

/-- The piece of a declaration. Aliases have none. -/
inductive Decl.Piece : Decl → List Instruction → Prop
  | global {name type : Token} {init : Option Token} {v : Operand} :
    Piece (.global name type init) [.global (.ofToken name), .copy (.ofToken name) v]
  | routine {r : Routine} {piece : List Instruction}
    (h : Code.FunctionPiece r.name.lexeme (r.params.map (·.name.lexeme)) piece) :
    Piece (.routine r) piece

def Decl.isAlias : Decl → Bool
  | .alias _ _ => true
  | _ => false

namespace Code

variable {code code' : List Instruction} {x : Instruction}

theorem callsFed_nil : CallsFed [] := by
  constructor
  · intro i x hx
    simp at hx
  · intro j x hx
    simp at hx

theorem callsFed_singleton (h : x.plain = true) : CallsFed [x] := by
  simp only [Instruction.plain, Bool.and_eq_true, bne_iff_ne] at h
  obtain ⟨hp, hc⟩ := h
  have hx {i : Nat} {y : Instruction} (hy : [x][i]? = some y) : y = x := by
    rw [← List.mem_singleton]
    exact List.mem_of_getElem? hy
  constructor
  · intro i y hy hop
    exact absurd (hx hy ▸ hop) hc
  · intro j y hy hop
    exact absurd (hx hy ▸ hop) hp

/-- A call behind its arguments. -/
theorem callsFed_call (as : List Operand) (dest : Option Operand) (f : String) :
    CallsFed (as.map Instruction.param ++ [Instruction.call dest (.name f) as.length]) := by
  have harg {j : Nat} (hj : j < as.length) :
      ∃ a, (as.map Instruction.param ++ [Instruction.call dest (.name f) as.length])[j]? =
        some (.param a) := by
    refine ⟨as[j], ?_⟩
    rw [List.getElem?_append_left (by simpa using hj)]
    simp [hj]
  have hlast :
      (as.map Instruction.param ++ [Instruction.call dest (.name f) as.length])[as.length]? =
        some (.call dest (.name f) as.length) := by
    rw [List.getElem?_append_right (by simp)]
    simp
  have hend {i : Nat} {y : Instruction}
      (hy : (as.map Instruction.param ++ [Instruction.call dest (.name f) as.length])[i]? =
        some y) :
      i ≤ as.length := by
    have := (List.getElem?_eq_some_iff.mp hy).1
    simp only [List.length_append, List.length_map, List.length_singleton] at this
    omega
  have hcall {i : Nat} {y : Instruction} (hop : y.op = .call)
      (hy : (as.map Instruction.param ++ [Instruction.call dest (.name f) as.length])[i]? =
        some y) :
      i = as.length := by
    by_contra hne
    have hi := hend hy
    obtain ⟨a, ha⟩ := harg (j := i) (by omega)
    rw [ha] at hy
    cases hy
    cases hop
  constructor
  · intro i y hy hop
    obtain rfl := hcall hop hy
    rw [hlast] at hy
    cases hy
    exact ⟨dest, f, as.length, rfl, Nat.le_refl _, fun j _ hj => harg hj, fun y hlt => by omega⟩
  · intro j y hy hop
    have hj : j < as.length := by
      rcases Nat.lt_or_eq_of_le (hend hy) with hj | rfl
      · exact hj
      · rw [hlast] at hy
        cases hy
        cases hop
    refine ⟨as.length, ⟨dest, f, as.length, hlast, by omega, hj⟩, ?_⟩
    rintro i ⟨dest', f', m, hi, -, -⟩
    exact hcall rfl hi

/-- No argument at the end of code waits for a call behind it. -/
theorem CallsFed.last (h : CallsFed code) (hx : code[code.length - 1]? = some x) :
    x.op ≠ .param := by
  intro hop
  obtain ⟨i, ⟨dest, f, m, hi, -, hlt⟩, -⟩ := h.params _ x hx hop
  have := (List.getElem?_eq_some_iff.mp hi).1
  omega

theorem CallsFed.append (h : CallsFed code) (h' : CallsFed code') : CallsFed (code ++ code') := by
  have hleft {i : Nat} (hi : i < code.length) : (code ++ code')[i]? = code[i]? :=
    List.getElem?_append_left hi
  have hright {i : Nat} : (code ++ code')[code.length + i]? = code'[i]? := by
    rw [List.getElem?_append_right (by omega), Nat.add_sub_cancel_left]
  constructor
  · intro i x hx hop
    rcases Nat.lt_or_ge i code.length with hi | hi
    · rw [hleft hi] at hx
      obtain ⟨dest, f, m, rfl, hm, hargs, hfirst⟩ := h.calls i x hx hop
      refine ⟨dest, f, m, rfl, hm, fun j hij hj => ?_, fun y hlt hy => ?_⟩
      · rw [hleft (by omega)]
        exact hargs j hij hj
      · rw [hleft (by omega)] at hy
        exact hfirst y hlt hy
    · obtain ⟨i, rfl⟩ := Nat.exists_eq_add_of_le hi
      rw [hright] at hx
      obtain ⟨dest, f, m, rfl, hm, hargs, hfirst⟩ := h'.calls i x hx hop
      refine ⟨dest, f, m, rfl, by omega, fun j hij hj => ?_, fun y hlt hy => ?_⟩
      · obtain ⟨j, rfl⟩ := Nat.exists_eq_add_of_le (show code.length ≤ j by omega)
        rw [hright]
        exact hargs j (by omega) (by omega)
      · rcases Nat.lt_or_eq_of_le hm with hm | rfl
        · rw [show code.length + i - m - 1 = code.length + (i - m - 1) by omega, hright] at hy
          exact hfirst y hm hy
        · -- The arguments begin where the second part does.
          rw [show code.length + m - m - 1 = code.length - 1 by omega, hleft (by omega)] at hy
          exact h.last hy
  · intro j x hx hop
    rcases Nat.lt_or_ge j code.length with hj | hj
    · rw [hleft hj] at hx
      obtain ⟨i, ⟨dest, f, m, hi, hij, hji⟩, hone⟩ := h.params j x hx hop
      have hlt : i < code.length := (List.getElem?_eq_some_iff.mp hi).1
      refine ⟨i, ⟨dest, f, m, by rw [hleft hlt, hi], hij, hji⟩, ?_⟩
      rintro k ⟨dest', f', m', hk, hkj, hjk⟩
      rcases Nat.lt_or_ge k code.length with hlt | hge
      · rw [hleft hlt] at hk
        exact hone k ⟨dest', f', m', hk, hkj, hjk⟩
      · -- The arguments of a call of the second part stand in that part.
        obtain ⟨k, rfl⟩ := Nat.exists_eq_add_of_le hge
        rw [hright] at hk
        obtain ⟨_, _, m, hcall, hm, -⟩ := h'.calls k _ hk rfl
        cases hcall
        omega
    · obtain ⟨j, rfl⟩ := Nat.exists_eq_add_of_le hj
      rw [hright] at hx
      obtain ⟨i, ⟨dest, f, m, hi, hij, hji⟩, hone⟩ := h'.params j x hx hop
      refine ⟨code.length + i, ⟨dest, f, m, by rw [hright, hi], by omega, by omega⟩, ?_⟩
      rintro k ⟨dest', f', m', hk, hkj, hjk⟩
      obtain ⟨k, rfl⟩ := Nat.exists_eq_add_of_le (show code.length ≤ k by omega)
      rw [hright] at hk
      rw [hone k ⟨dest', f', m', hk, by omega, by omega⟩]

theorem callsFed_of_plain (h : ∀ x ∈ code, x.plain = true) : CallsFed code := by
  induction code with
  | nil => exact callsFed_nil
  | cons x code ih =>
    obtain ⟨hx, hs⟩ := List.forall_mem_cons.mp h
    exact (callsFed_singleton hx).append (ih hs)

theorem readsBehind_of_reads (h : ∀ x ∈ code, x.reads = []) : ReadsBehind code := by
  intro i x hx n hn
  rw [h x (List.mem_of_getElem? hx)] at hn
  cases hn

theorem ReadsBehind.append (h : ReadsBehind code)
    (h' : ∀ i x, code'[i]? = some x → ∀ n ∈ x.reads,
      n ∈ code.flatMap Instruction.sets ∨ n ∈ (code'.take i).flatMap Instruction.sets) :
    ReadsBehind (code ++ code') := by
  intro i x hx n hn
  rcases Nat.lt_or_ge i code.length with hi | hi
  · rw [List.getElem?_append_left hi] at hx
    rw [List.take_append_of_le_length (Nat.le_of_lt hi)]
    exact h i x hx n hn
  · rw [List.getElem?_append_right hi] at hx
    rw [List.take_append, List.take_of_length_le hi, List.flatMap_append, List.mem_append]
    exact h' _ x hx n hn

/-- Code that sets the temporaries from `first` up to `last` and those of `sets`. It reads those
from `first` up to `last` but for the ones that wait to be read behind it. -/
structure Uses (first last : Nat) (sets waiting : List Nat) (code : List Instruction) : Prop where
  le : first ≤ last
  calls : CallsFed code
  body : ∀ x ∈ code, (x.op != .paramIn) = true
  sets : (code.flatMap Instruction.sets).Perm (List.range' first (last - first) ++ sets)
  reads : (code.flatMap Instruction.reads ++ waiting).Perm (List.range' first (last - first))
  order : ReadsBehind code

/-- Temporaries from one number up to another, counted in two parts. -/
theorem count_range' {i j k : Nat} (hij : i ≤ j) (hjk : j ≤ k) (n : Nat) :
    (List.range' i (k - i)).count n =
      (List.range' i (j - i)).count n + (List.range' j (k - j)).count n := by
  have hsplit : List.range' i (k - i) = List.range' i (j - i) ++ List.range' j (k - j) := by
    have := List.range'_append_1 (s := i) (m := j - i) (n := k - j)
    rw [show i + (j - i) = j by omega, show j - i + (k - j) = k - i by omega] at this
    exact this.symm
  rw [hsplit, List.count_append]

namespace Uses

variable {i j k : Nat} {s s' w w' : List Nat}

theorem nil (n : Nat) : Uses n n [] [] [] where
  le := Nat.le_refl n
  calls := callsFed_nil
  body := List.forall_mem_nil _
  sets := by simp
  reads := by simp
  order := readsBehind_of_reads (List.forall_mem_nil _)

theorem append (h : Uses i j s w code) (h' : Uses j k s' w' code') :
    Uses i k (s ++ s') (w ++ w') (code ++ code') where
  le := Nat.le_trans h.le h'.le
  calls := h.calls.append h'.calls
  body := List.forall_mem_append.mpr ⟨h.body, h'.body⟩
  sets := by
    rw [List.perm_iff_count]
    intro n
    have hl := h.sets.count_eq n
    have hr := h'.sets.count_eq n
    have hrange := count_range' h.le h'.le n
    simp only [List.flatMap_append, List.count_append] at hl hr ⊢
    omega
  reads := by
    rw [List.perm_iff_count]
    intro n
    have hl := h.reads.count_eq n
    have hr := h'.reads.count_eq n
    have hrange := count_range' h.le h'.le n
    simp only [List.flatMap_append, List.count_append] at hl hr ⊢
    omega
  order := h.order.append fun m x hx n hn => .inr (h'.order m x hx n hn)

/-- An instruction that reads all that waits. -/
theorem close (h : Uses i k [] w code) (hw : x.reads = w) (hp : x.plain = true)
    (hi : (x.op != .paramIn) = true) : Uses i k x.sets [] (code ++ [x]) where
  le := h.le
  calls := h.calls.append (callsFed_singleton hp)
  body := List.forall_mem_append.mpr ⟨h.body, List.forall_mem_singleton.mpr hi⟩
  sets := by
    have := h.sets
    rw [List.append_nil] at this
    simpa using this.append_right x.sets
  reads := by simpa [hw] using h.reads
  order := by
    refine h.order.append fun m y hy n hn => .inl ?_
    obtain rfl : y = x := List.mem_singleton.mp (List.mem_of_getElem? hy)
    have hset : n ∈ List.range' i (k - i) :=
      h.reads.mem_iff.mp (List.mem_append_right _ (hw ▸ hn))
    exact h.sets.mem_iff.mpr (List.mem_append_left _ hset)

/-- The next temporary is set by the code behind it and waits to be read. -/
theorem spill (h : Uses (i + 1) k [i] [] code) : Uses i k [] [i] code := by
  have hle := h.le
  have hrange : List.range' i (k - i) = i :: List.range' (i + 1) (k - (i + 1)) := by
    rw [show k - i = k - (i + 1) + 1 by omega, List.range'_succ]
  refine ⟨by omega, h.calls, h.body, ?_, ?_, h.order⟩
  · rw [List.append_nil, hrange]
    exact h.sets.trans (List.perm_append_singleton i _)
  · rw [hrange]
    have hreads := h.reads
    rw [List.append_nil] at hreads
    exact (hreads.append_right [i]).trans (List.perm_append_singleton i _)

end Uses

/-- Names and literals are no temporaries. -/
theorem temp?_value {t : Token} {a : Operand} (h : value t = .ok a) : a.temp? = none := by
  unfold value at h
  split at h
  · cases h
    rfl
  · split at h
    · next o ho =>
      cases h
      unfold Operand.ofLiteral? at ho
      split at ho
      · cases ho
        rfl
      · cases ho
        rfl
      · split at ho
        · cases ho
          rfl
        · obtain ⟨v, -, rfl⟩ := Option.map_eq_some_iff.mp ho
          rfl
      · cases ho
    · cases h

theorem uses_copy {a : Operand} (ha : a.temp? = none) (dest : Operand) (n : Nat) :
    Uses n n dest.temp?.toList [] [.copy dest a] := by
  have hreads : (Instruction.copy dest a).reads = [] := by
    simp [Instruction.reads, Instruction.copy, ha]
  exact (Uses.nil n).close hreads rfl rfl

theorem exists_params {args : List Token} {ps : List Instruction}
    (h : List.Forall₂ (fun t p => ∃ a, value t = .ok a ∧ .param a = p) args ps) :
    ∃ as : List Operand, ps = as.map .param ∧ as.length = args.length ∧
      ∀ a ∈ as, a.temp? = none := by
  induction h with
  | nil => exact ⟨[], rfl, rfl, List.forall_mem_nil _⟩
  | cons hx _ ih =>
    obtain ⟨a, ha, rfl⟩ := hx
    obtain ⟨as, rfl, hlength, has⟩ := ih
    exact ⟨a :: as, rfl, by simp [hlength], List.forall_mem_cons.mpr ⟨temp?_value ha, has⟩⟩

theorem uses_call {dest : Option Operand} {f : Token} {args : List Token}
    (h : call dest f args = .ok code) (n : Nat) :
    Uses n n (dest.bind Operand.temp?).toList [] code := by
  obtain ⟨ps, hps, rfl⟩ := call_eq_ok h
  obtain ⟨as, rfl, hlength, has⟩ := exists_params hps
  have hsets : (as.map Instruction.param).flatMap Instruction.sets = [] := by
    simp [List.flatMap_eq_nil_iff, Instruction.sets, Instruction.param]
  have hreads : ∀ x ∈ as.map Instruction.param ++ [Instruction.call dest (.ofToken f) args.length],
      x.reads = [] := by
    rw [List.forall_mem_append, List.forall_mem_map, List.forall_mem_singleton]
    exact ⟨fun a ha => by simp [Instruction.reads, Instruction.param, has a ha], rfl⟩
  refine ⟨Nat.le_refl n, ?_, ?_, ?_, ?_, readsBehind_of_reads hreads⟩
  · rw [← hlength]
    exact callsFed_call as dest f.lexeme
  · rw [List.forall_mem_append, List.forall_mem_map, List.forall_mem_singleton]
    exact ⟨fun a _ => rfl, rfl⟩
  · rw [List.flatMap_append, hsets]
    simp [Instruction.sets, Instruction.call]
  · rw [List.flatMap_eq_nil_iff.mpr hreads]
    simp

/-- Code for an operand: what it gives waits to be read. -/
theorem uses_spill {e : Expr} {first last : Nat} {a : Operand}
    (he : ∀ {dest first last code}, into e dest first = .ok (code, last) →
      Uses first last dest.temp?.toList [] code)
    (h : spill e first (into e) = .ok (a, code, last)) :
    Uses first last [] a.temp?.toList code := by
  rcases spill_eq_ok h with ⟨t, -, ha, rfl, rfl⟩ | ⟨rfl, hinto⟩
  · rw [temp?_value ha]
    exact .nil _
  · exact (he hinto).spill

theorem uses_into {e : Expr} {dest : Operand} {first last : Nat}
    (h : into e dest first = .ok (code, last)) : Uses first last dest.temp?.toList [] code := by
  induction e generalizing dest first last code with
  | literal t =>
    obtain ⟨a, ha, h⟩ := map_eq_ok.mp h
    cases h
    exact uses_copy (temp?_value ha) dest first
  | name t =>
    obtain ⟨a, ha, h⟩ := map_eq_ok.mp h
    cases h
    exact uses_copy (temp?_value ha) dest first
  | call f args =>
    obtain ⟨made, hc, h⟩ := map_eq_ok.mp h
    cases h
    exact uses_call hc first
  | binary op t lhs rhs hl hr =>
    obtain ⟨l, left, k, r, right, hleft, hright, rfl⟩ := into_binary_eq_ok h
    have hoperands := (uses_spill hl hleft).append (uses_spill hr hright)
    exact hoperands.close (x := .binary op dest l r) rfl rfl rfl

theorem uses_statement {symbols : SymbolTable} {func : Token} {s : Stmt} {first last : Nat}
    (h : statement symbols func s first = .ok (code, last)) : Uses first last [] [] code := by
  cases s with
  | «local» name type init =>
    cases init with
    | none =>
      obtain ⟨v, hv, h⟩ := bind_eq_ok.mp h
      cases h
      have hzero : v.temp? = none := by
        unfold zero at hv
        split at hv
        · next ty _ =>
          cases hv
          cases ty <;> rfl
        · cases hv
      exact uses_copy hzero (.ofToken name) first
    | some e =>
      rw [statement, store_eq_into] at h
      exact uses_into h
  | assign target e =>
    rw [statement, store_eq_into] at h
    exact uses_into h
  | call f args =>
    obtain ⟨c, hc, h⟩ := bind_eq_ok.mp h
    cases h
    exact uses_call hc first
  | ret keyword e =>
    obtain ⟨⟨a, c, k⟩, hc, h⟩ := bind_eq_ok.mp h
    cases h
    rw [operand_eq_spill] at hc
    have hreads : (Instruction.ret a).reads = a.temp?.toList := List.append_nil _
    exact (uses_spill uses_into hc).close hreads rfl rfl

theorem uses_statements {symbols : SymbolTable} {func : Token} {ss : List Stmt} {first : Nat}
    (h : statements symbols func ss first = .ok code) : ∃ last, Uses first last [] [] code := by
  induction ss generalizing first code with
  | nil =>
    cases h
    exact ⟨first, .nil first⟩
  | cons s ss ih =>
    rw [statements] at h
    obtain ⟨⟨made, n⟩, hs, h⟩ := bind_eq_ok.mp h
    obtain ⟨more, hss, h⟩ := bind_eq_ok.mp h
    cases h
    obtain ⟨last, hmore⟩ := ih hss
    exact ⟨last, (uses_statement hs).append hmore⟩

/-- Has nothing to do with temporaries and calls. -/
structure Idle (x : Instruction) : Prop where
  sets : x.sets = []
  reads : x.reads = []
  plain : x.plain = true

section
variable {front back : List Instruction}
variable (hfront : ∀ x ∈ front, Idle x) (hback : ∀ x ∈ back, Idle x)
include hfront hback

theorem sets_framed :
    (front ++ code ++ back).flatMap Instruction.sets = code.flatMap Instruction.sets := by
  have hfront := List.flatMap_eq_nil_iff.mpr fun x hx => (hfront x hx).sets
  have hback := List.flatMap_eq_nil_iff.mpr fun x hx => (hback x hx).sets
  rw [List.flatMap_append, List.flatMap_append, hfront, hback, List.nil_append, List.append_nil]

theorem reads_framed :
    (front ++ code ++ back).flatMap Instruction.reads = code.flatMap Instruction.reads := by
  have hfront := List.flatMap_eq_nil_iff.mpr fun x hx => (hfront x hx).reads
  have hback := List.flatMap_eq_nil_iff.mpr fun x hx => (hback x hx).reads
  rw [List.flatMap_append, List.flatMap_append, hfront, hback, List.nil_append, List.append_nil]

theorem ReadsBehind.framed (h : ReadsBehind code) : ReadsBehind (front ++ code ++ back) := by
  have hfront := readsBehind_of_reads fun x hx => (hfront x hx).reads
  have hback := readsBehind_of_reads fun x hx => (hback x hx).reads
  have hbefore := hfront.append fun i x hx n hn => .inr (h i x hx n hn)
  exact hbefore.append fun i x hx n hn => .inr (hback i x hx n hn)

theorem CallsFed.framed (h : CallsFed code) : CallsFed (front ++ code ++ back) := by
  have hfront := callsFed_of_plain fun x hx => (hfront x hx).plain
  have hback := callsFed_of_plain fun x hx => (hback x hx).plain
  exact (hfront.append h).append hback

end

theorem not_mem_frame (hinner : x.inner = true) (hbody : (x.op != .paramIn) = true) :
    x.op ∉ [.global, .func, .paramIn, .endFunc] := by
  intro hop
  simp only [List.mem_cons, List.not_mem_nil, or_false] at hop
  rcases hop with hop | hop | hop | hop
  · simp [Instruction.inner, hop] at hinner
  · simp [Instruction.inner, hop] at hinner
  · simp [hop] at hbody
  · simp [Instruction.inner, hop] at hinner

variable {symbols : SymbolTable}

theorem piece_routine {r : Routine} (h : routine symbols r = .ok code) :
    Decl.Piece (.routine r) code ∧ CallsFed code := by
  obtain ⟨body, hbody, rfl, hinner⟩ := routine_eq_ok h
  obtain ⟨-, hinner⟩ := List.forall_mem_append.mp hinner
  obtain ⟨last, huses⟩ := uses_statements hbody
  have hfront : ∀ x ∈ Instruction.func (.ofToken r.name) r.params.length ::
      r.params.map (fun q => Instruction.paramIn (.ofToken q.name)), Idle x := by
    rw [List.forall_mem_cons, List.forall_mem_map]
    exact ⟨⟨rfl, rfl, rfl⟩, fun q _ => ⟨rfl, rfl, rfl⟩⟩
  have hback : ∀ x ∈ [Instruction.endFunc (.ofToken r.name)], Idle x :=
    List.forall_mem_singleton.mpr ⟨rfl, rfl, rfl⟩
  rw [← List.cons_append]
  refine ⟨.routine ⟨⟨body, ?_, fun x hx => not_mem_frame (hinner x hx) (huses.body x hx)⟩,
    ⟨last, ?_, ?_⟩, huses.order.framed hfront hback⟩, huses.calls.framed hfront hback⟩
  · simp [Operand.ofToken, List.map_map, Function.comp_def]
  · rw [sets_framed hfront hback, List.range_eq_range']
    simpa using huses.sets
  · rw [reads_framed hfront hback, List.range_eq_range']
    simpa using huses.reads

theorem piece_global {name type : Token} {init : Option Token}
    (h : global symbols name type init = .ok code) :
    Decl.Piece (.global name type init) code ∧ CallsFed code := by
  obtain ⟨v, rfl⟩ := global_eq_ok h
  refine ⟨.global, callsFed_of_plain ?_⟩
  rw [List.forall_mem_cons, List.forall_mem_singleton]
  exact ⟨rfl, rfl⟩

/-- The code of declarations is that of their pieces. -/
theorem pieces {ds : List Decl} {codes : List (List Instruction)}
    (h : List.Forall₂ (fun d code => decl symbols d = .ok code) ds codes) :
    ∃ pieces, List.Forall₂ Decl.Piece (ds.filter (!·.isAlias)) pieces ∧
      codes.flatten = pieces.flatten ∧ CallsFed codes.flatten := by
  induction h with
  | nil => exact ⟨[], .nil, rfl, callsFed_nil⟩
  | @cons d code ds codes hd _ ih =>
    obtain ⟨pieces, hpieces, hflat, hcalls⟩ := ih
    have hmore (hpiece : d.Piece code ∧ CallsFed code) (hd : d.isAlias = false) :
        ∃ pieces, List.Forall₂ Decl.Piece ((d :: ds).filter (!·.isAlias)) pieces ∧
          (code :: codes).flatten = pieces.flatten ∧ CallsFed (code :: codes).flatten := by
      refine ⟨code :: pieces, ?_, ?_, hpiece.2.append hcalls⟩
      · rw [List.filter_cons_of_pos (by simp [hd])]
        exact .cons hpiece.1 hpieces
      · rw [List.flatten_cons, List.flatten_cons, hflat]
    cases d with
    | «alias» name type =>
      cases hd
      exact ⟨pieces, hpieces, hflat, hcalls⟩
    | global name type init => exact hmore (piece_global hd) rfl
    | routine r => exact hmore (piece_routine hd) rfl

end Code

/-- The code of a tree is one piece after another, for its globals and its functions in their order.
A global is declared and set. A function opens with as many parameters as it has, in their order,
and its temporaries are those below some number, each set once and read once, behind that. Every
call has its arguments, and no others, directly in front of it, and every argument has its call. -/
theorem emit_well_shaped {ts : List Token} {tree : Tree} {symbols : SymbolTable}
    {code : List Instruction} (h : parse Grammar.table ts = .ok tree)
    (hcode : tree.emit Phase.table symbols = .ok code) :
    ∃ p pieces, tree.program = .ok p ∧ code = pieces.flatten ∧
      List.Forall₂ Decl.Piece (p.filter (!·.isAlias)) pieces ∧ Code.CallsFed code := by
  obtain ⟨f, rest, -, rfl⟩ := Phrase.parse_ok h
  rw [Tree.emit_eq symbols rfl] at hcode
  obtain ⟨codes, hcodes, rfl⟩ := map_eq_ok.mp hcode
  obtain ⟨pieces, hpieces, hflat, hcalls⟩ := Code.pieces (forall₂_of_mapM hcodes)
  exact ⟨_, pieces, Phrase.File.program_of_items rfl, hflat, hpieces, hcalls⟩

/-- Calls on both sides of operators, in two functions with a global and an alias in between. -/
theorem emit_well_shaped_nested_calls :
    let text := "func f(a: int): int { return f(a) * a + f(1); } type n = int; var g: n = 1;
      func h(): int { f(g); return g - h() / 2; }"
    ∃ ts tree code p pieces, tokenize .unlimited "a" (.ofBytes text.toUTF8.toList) = .ok ts ∧
      parse Grammar.table ts = .ok tree ∧
      tree.emit Phase.table (Analysis.ofOutcomes [some tree]).symbols = .ok code ∧
      tree.program = .ok p ∧ code = pieces.flatten ∧
      code.flatMap Instruction.sets = [2, 1, 3, 0, 2, 1, 0] ∧
      List.Forall₂ Decl.Piece (p.filter (!·.isAlias)) pieces ∧ Code.CallsFed code := by
  intro text
  have hrun : ((tokenize .unlimited "a" (.ofBytes text.toUTF8.toList)).toOption.bind fun ts =>
      (parse Grammar.table ts).toOption.bind fun tree =>
        (tree.emit Phase.table (Analysis.ofOutcomes [some tree]).symbols).toOption.map
          fun code => code.flatMap Instruction.sets) = some [2, 1, 3, 0, 2, 1, 0] := by
    rw [Text.toList_toUTF8_ofList]
    decide +kernel
  obtain ⟨ts, hts, hrun⟩ := Option.bind_eq_some_iff.mp hrun
  obtain ⟨tree, htree, hrun⟩ := Option.bind_eq_some_iff.mp hrun
  obtain ⟨code, hcode, hsets⟩ := Option.map_eq_some_iff.mp hrun
  have htree := toOption_eq_some.mp htree
  have hcode := toOption_eq_some.mp hcode
  obtain ⟨p, pieces, hp, hflat, hpieces, hcalls⟩ := emit_well_shaped htree hcode
  exact ⟨ts, tree, code, p, pieces, toOption_eq_some.mp hts, htree, hcode, hp, hflat, hsets,
    hpieces, hcalls⟩

end ThreeAddress
