import Mathlib.Data.Finset.Card
import Mathlib.Data.List.Infix
import Mathlib.Data.List.Nodup
import ThreeAddress.Proofs.Results
import ThreeAddress.Token.WordTree

namespace ThreeAddress

namespace WordTree

variable {t : WordTree} {i j k : Nat} {s r : Fin 52}

theorem child?_eq_none (h : t.nodes.size ≤ i) : t.child? i s = none := by
  rw [child?, Array.getElem?_eq_none h]

@[simp] theorem size_link : (t.link i s).nodes.size = t.nodes.size + 1 := by
  simp [link]

@[simp] theorem size_mark : (t.mark i).nodes.size = t.nodes.size := by
  simp [mark]

/-- The new node is the child that was asked for, and no other child changes. -/
theorem child?_link (hi : i < t.nodes.size) (hfit : t.nodes.size < UInt32.size) :
    (t.link i s).child? k r =
      if k = i ∧ r = s then some t.nodes.size else t.child? k r := by
  have hid : (UInt32.ofNat t.nodes.size).toNat = t.nodes.size := UInt32.toNat_ofNat_of_lt hfit
  have hne : UInt32.ofNat t.nodes.size ≠ 0 := by
    intro h
    rw [h] at hid
    have hzero : (0 : UInt32).toNat = 0 := rfl
    omega
  unfold child? link
  rw [Array.getElem?_modify, Array.getElem?_push]
  by_cases hk : k = i
  · subst hk
    have hlast : k ≠ t.nodes.size := by omega
    rw [if_pos rfl, if_neg hlast, Array.getElem?_eq_getElem hi]
    by_cases hr : r = s
    · subst hr
      simp [hid, hne]
    · have hval : (s : Nat) ≠ r := fun h => hr (Fin.ext h.symm)
      simp [hr, hval]
  · have hother : ¬(k = i ∧ r = s) := fun h => hk h.1
    rw [if_neg (fun h => hk h.symm), if_neg hother]
    by_cases hlast : k = t.nodes.size
    · simp [hlast, WordNode.blank]
    · rw [if_neg hlast]

@[simp] theorem child?_mark : (t.mark i).child? k r = t.child? k r := by
  unfold child? mark
  rw [Array.getElem?_modify]
  by_cases hk : i = k
  · rw [if_pos hk]
    cases t.nodes[k]? <;> rfl
  · rw [if_neg hk]

@[simp] theorem ends_link : (t.link i s).ends k = t.ends k := by
  unfold ends link
  rw [Array.getElem?_modify, Array.getElem?_push]
  have hpush : (if k = t.nodes.size then some WordNode.blank else t.nodes[k]?).any (·.terminal) =
      t.nodes[k]?.any (·.terminal) := by
    by_cases hlast : k = t.nodes.size
    · simp [hlast, WordNode.blank]
    · rw [if_neg hlast]
  by_cases hk : i = k
  · rw [if_pos hk, ← hpush]
    simp [Option.any_map]
  · rw [if_neg hk, hpush]

theorem ends_mark (hi : i < t.nodes.size) :
    (t.mark i).ends k = true ↔ k = i ∨ t.ends k = true := by
  unfold ends mark
  rw [Array.getElem?_modify]
  by_cases hk : k = i
  · subst hk
    simp [Array.getElem?_eq_getElem hi]
  · rw [if_neg (fun h => hk h.symm)]
    simp [hk]

/-- The letter that has a place. -/
def letter (s : Fin 52) : Char := Char.ofNat (if s.1 < 26 then 65 + s.1 else 71 + s.1)

theorem slot?_letter : ∀ s, slot? (letter s) = some s := by decide

theorem slot?_eq_some {c : Char} : slot? c = some s ↔ c = letter s := by
  constructor
  · intro h
    have htoNat : c.toNat = if s.1 < 26 then 65 + s.1 else 71 + s.1 := by
      unfold slot? at h
      split at h
      · cases h
        simp only
        split <;> omega
      · split at h
        · cases h
          simp only
          split <;> omega
        · cases h
    rw [letter, ← htoNat, Char.ofNat_toNat]
  · rintro rfl
    exact slot?_letter s

theorem letter_injective : Function.Injective letter := by
  intro s r h
  have hs := slot?_letter s
  rw [h, slot?_letter r] at hs
  exact (Option.some.inj hs).symm

theorem isSome_slot? (c : Char) : (slot? c).isSome = c.isAlpha := by
  have hupper : c.isUpper = true ↔ 65 ≤ c.toNat ∧ c.toNat ≤ 90 := by
    delta Char.isUpper
    simp [UInt32.le_iff_toNat_le]
  have hlower : c.isLower = true ↔ 97 ≤ c.toNat ∧ c.toNat ≤ 122 := by
    delta Char.isLower
    simp [UInt32.le_iff_toNat_le]
  have halpha : c.isAlpha = (c.isUpper || c.isLower) := rfl
  rw [Bool.eq_iff_iff, halpha, Bool.or_eq_true, hupper, hlower, slot?]
  split
  · next h => simp [h]
  · next h => split <;> simp_all

theorem mapM_slot? {cs : List Char} {slots : List (Fin 52)} :
    cs.mapM slot? = some slots ↔ cs = slots.map letter := by
  rw [mapM_eq_some]
  constructor
  · intro h
    induction h with
    | nil => rfl
    | cons hs _ ih => rw [List.map_cons, ← ih, slot?_eq_some.mp hs]
  · rintro rfl
    induction slots with
    | nil => exact .nil
    | cons s slots ih => exact .cons (slot?_letter s) ih

/-- The letters that lead to the nodes, in the order of the ids. Every id of a child is that of a
node, every node is reached in one way, and the root by no letters. -/
structure Spells (t : WordTree) (paths : List (List (Fin 52))) : Prop where
  length_eq : paths.length = t.nodes.size
  root : paths[0]? = some []
  nodup : paths.Nodup
  closed : ∀ p s, p ++ [s] ∈ paths → p ∈ paths
  child : ∀ i p s j, paths[i]? = some p → (t.child? i s = some j ↔ paths[j]? = some (p ++ [s]))

variable {paths : List (List (Fin 52))} {p : List (Fin 52)}

theorem spells_empty : empty.Spells [[]] where
  length_eq := rfl
  root := rfl
  nodup := List.nodup_singleton []
  closed p s h := by simp at h
  child i p s j h := by
    have hchild : empty.child? i s = none := by
      cases i with
      | zero => simp [child?, empty, WordNode.blank]
      | succ i => exact child?_eq_none (by simp [empty])
    have hpath : [[]][j]? ≠ some (p ++ [s]) := by cases j <;> simp
    simp [hchild, hpath]

namespace Spells

variable (h : t.Spells paths)

include h

theorem lt_size (hp : paths[i]? = some p) : i < t.nodes.size := by
  obtain ⟨hlt, -⟩ := List.getElem?_eq_some_iff.mp hp
  rw [← h.length_eq]
  exact hlt

theorem eq_of_path (hi : paths[i]? = some p) (hj : paths[j]? = some p) : i = j := by
  obtain ⟨hlt, -⟩ := List.getElem?_eq_some_iff.mp hi
  exact (List.getElem?_inj hlt h.nodup).mp (hi.trans hj.symm)

theorem not_mem_of_child?_eq_none (hp : paths[i]? = some p) (hnone : t.child? i s = none) :
    p ++ [s] ∉ paths := by
  intro hmem
  obtain ⟨j, hj⟩ := List.mem_iff_getElem?.mp hmem
  have hchild : t.child? i s = some j := (h.child i p s j hp).mpr hj
  simp [hnone] at hchild

/-- A new node is reached by the letters of its parent and one more. -/
theorem link (hp : paths[i]? = some p) (hnone : t.child? i s = none)
    (hfit : t.nodes.size < UInt32.size) : (t.link i s).Spells (paths ++ [p ++ [s]]) := by
  have hi : i < t.nodes.size := h.lt_size hp
  have hnew : p ++ [s] ∉ paths := h.not_mem_of_child?_eq_none hp hnone
  have hbelow (r : Fin 52) : p ++ [s] ++ [r] ∉ paths := fun hmem => hnew (h.closed _ _ hmem)
  refine ⟨?_, ?_, ?_, ?_, ?_⟩
  · simp [h.length_eq]
  · rw [getElem?_concat_eq_some]
    exact .inl h.root
  · rw [List.nodup_append_comm, List.singleton_append, List.nodup_cons]
    exact ⟨hnew, h.nodup⟩
  · intro q r hmem
    rw [List.mem_append] at hmem ⊢
    rcases hmem with hmem | hmem
    · exact .inl (h.closed q r hmem)
    · obtain ⟨rfl, -⟩ := List.append_inj' (List.mem_singleton.mp hmem) rfl
      exact .inl (List.mem_of_getElem? hp)
  · intro k q r j hk
    rw [child?_link hi hfit, getElem?_concat_eq_some]
    rw [getElem?_concat_eq_some] at hk
    rcases hk with hk | ⟨rfl, rfl⟩
    · by_cases hhere : k = i ∧ r = s
      · obtain ⟨rfl, rfl⟩ := hhere
        obtain rfl : q = p := Option.some.inj (hk.symm.trans hp)
        have hold : paths[j]? ≠ some (q ++ [r]) := fun hj => hnew (List.mem_of_getElem? hj)
        simp [hold, h.length_eq, eq_comm]
      · have hlast : ¬(j = paths.length ∧ p ++ [s] = q ++ [r]) := by
          rintro ⟨-, heq⟩
          obtain ⟨rfl, heq⟩ := List.append_inj' heq rfl
          exact hhere ⟨h.eq_of_path hk hp, by simpa using heq.symm⟩
        rw [if_neg hhere, h.child k q r j hk, or_iff_left hlast]
    · have hhere : ¬(paths.length = i ∧ r = s) := by
        rintro ⟨heq, -⟩
        have hlength := h.length_eq
        omega
      have hold : paths[j]? ≠ some (p ++ [s] ++ [r]) := fun hj =>
        hbelow r (List.mem_of_getElem? hj)
      have hlast : ¬(j = paths.length ∧ p ++ [s] = p ++ [s] ++ [r]) := by simp
      rw [if_neg hhere, child?_eq_none (by rw [h.length_eq])]
      simp only [reduceCtorEq, hold, hlast, or_self]

/-- Letters are followed to the node that they lead to. -/
theorem walk_eq_some {cs : List Char} :
    t.walk cs = some i ↔ ∃ q : List (Fin 52), cs = q.map letter ∧ paths[i]? = some q := by
  induction cs using List.reverseRecOn generalizing i with
  | nil =>
    have hroot : t.walk [] = some i ↔ 0 = i := by simp [walk]
    rw [hroot]
    constructor
    · rintro rfl
      exact ⟨[], rfl, h.root⟩
    · rintro ⟨q, hq, hi⟩
      obtain rfl : q = [] := by simpa using hq.symm
      exact h.eq_of_path h.root hi
  | append_singleton cs c ih =>
    have hstep : t.walk (cs ++ [c]) = some i ↔
        ∃ k, t.walk cs = some k ∧ ∃ s, slot? c = some s ∧ t.child? k s = some i := by
      simp [walk, List.foldlM_append, Option.bind_eq_some_iff]
    rw [hstep]
    constructor
    · rintro ⟨k, hk, s, hs, hi⟩
      obtain ⟨q, rfl, hq⟩ := ih.mp hk
      obtain rfl := slot?_eq_some.mp hs
      exact ⟨q ++ [s], by simp, (h.child k q s i hq).mp hi⟩
    · rintro ⟨q, hq, hi⟩
      obtain ⟨p, l, rfl, rfl, hl⟩ := List.map_eq_append_iff.mp hq.symm
      obtain ⟨s, rfl, rfl⟩ := List.map_eq_singleton_iff.mp hl
      obtain ⟨k, hk⟩ := List.mem_iff_getElem?.mp (h.closed p s (List.mem_of_getElem? hi))
      exact ⟨k, ih.mpr ⟨p, rfl, hk⟩, s, slot?_letter s, (h.child k p s i hk).mpr hi⟩

/-- Marking a node moves none. -/
theorem mark (i : Nat) : (t.mark i).Spells paths where
  length_eq := by rw [h.length_eq, size_mark]
  root := h.root
  nodup := h.nodup
  closed := h.closed
  child k q r j hk := by rw [child?_mark, h.child k q r j hk]

end Spells

theorem Descent.size_step (d : Descent) (s : Fin 52) :
    d.tree.nodes.size ≤ (d.step s).tree.nodes.size ∧
      ((d.step s).added = true ↔
        d.added = true ∨ d.tree.nodes.size < (d.step s).tree.nodes.size) := by
  unfold step
  split <;> simp

theorem Descent.ends_step (d : Descent) (s : Fin 52) (k : Nat) :
    (d.step s).tree.ends k = d.tree.ends k := by
  unfold step
  split <;> simp

theorem descend_concat (t : WordTree) (slots : List (Fin 52)) (s : Fin 52) :
    t.descend (slots ++ [s]) = (t.descend slots).step s := by
  rw [descend, List.foldl_concat]
  rfl

/-- A descent tells whether it added a node. -/
theorem size_descend (t : WordTree) (slots : List (Fin 52)) :
    t.nodes.size ≤ (t.descend slots).tree.nodes.size ∧
      ((t.descend slots).added = true ↔ t.nodes.size < (t.descend slots).tree.nodes.size) := by
  induction slots using List.reverseRecOn with
  | nil => simp [descend]
  | append_singleton slots s ih =>
    have hstep := (t.descend slots).size_step s
    rw [descend_concat, hstep.2, ih.2]
    omega

theorem ends_descend (t : WordTree) (slots : List (Fin 52)) (k : Nat) :
    (t.descend slots).tree.ends k = t.ends k := by
  induction slots using List.reverseRecOn with
  | nil => rfl
  | append_singleton slots s ih => rw [descend_concat, Descent.ends_step, ih]

/-- What a descent keeps: it is at the node that its letters lead to, nodes stay where they are, and
those that are added are on the way. -/
structure Follows (d : Descent) (paths : List (List (Fin 52))) (slots : List (Fin 52))
    (paths' : List (List (Fin 52))) : Prop where
  spells : d.tree.Spells paths'
  here : paths'[d.node]? = some slots
  le : paths <+: paths'
  mem_iff : ∀ q, q ∈ paths' ↔ q ∈ paths ∨ q <+: slots

theorem Follows.step {d : Descent} {slots : List (Fin 52)} {paths' : List (List (Fin 52))}
    (h : Follows d paths slots paths') (s : Fin 52)
    (hfit : (d.step s).tree.nodes.size ≤ UInt32.size) :
    ∃ paths'', Follows (d.step s) paths (slots ++ [s]) paths'' := by
  have hmem : ∀ q, q = slots ++ [s] ∨ q ∈ paths' ↔ q ∈ paths ∨ q <+: slots ++ [s] := by
    intro q
    rw [h.mem_iff, List.prefix_concat_iff]
    tauto
  unfold Descent.step at hfit ⊢
  cases hchild : d.tree.child? d.node s with
  | some j =>
    have hj : paths'[j]? = some (slots ++ [s]) := (h.spells.child _ _ _ _ h.here).mp hchild
    refine ⟨paths', h.spells, hj, h.le, fun q => ?_⟩
    rw [← hmem q]
    constructor
    · exact .inr
    · rintro (rfl | hq)
      · exact List.mem_of_getElem? hj
      · exact hq
  | none =>
    rw [hchild] at hfit
    have hlt : d.tree.nodes.size < UInt32.size := by
      simp only [size_link] at hfit
      omega
    refine ⟨paths' ++ [slots ++ [s]], h.spells.link h.here hchild hlt, ?_,
      h.le.trans (List.prefix_append _ _), fun q => ?_⟩
    · rw [getElem?_concat_eq_some]
      exact .inr ⟨h.spells.length_eq.symm, rfl⟩
    · rw [← hmem q, List.mem_append, List.mem_singleton, or_comm]

theorem follows_descend (h : t.Spells paths) (slots : List (Fin 52))
    (hfit : (t.descend slots).tree.nodes.size ≤ UInt32.size) :
    ∃ paths', Follows (t.descend slots) paths slots paths' := by
  induction slots using List.reverseRecOn with
  | nil =>
    refine ⟨paths, h, h.root, List.prefix_rfl, fun q => ?_⟩
    have hroot : [] ∈ paths := List.mem_of_getElem? h.root
    rw [List.prefix_nil]
    constructor
    · exact .inl
    · rintro (hq | rfl)
      · exact hq
      · exact hroot
  | append_singleton slots s ih =>
    rw [descend_concat] at hfit ⊢
    have hle := ((t.descend slots).size_step s).1
    obtain ⟨paths', h'⟩ := ih (by omega)
    exact h'.step s hfit

/-- A word of one letter or more and of nothing else. -/
def IsWord (w : String) : Prop := w ≠ "" ∧ w.toList.all Char.isAlpha = true

instance : DecidablePred IsWord := fun w =>
  inferInstanceAs (Decidable (w ≠ "" ∧ w.toList.all Char.isAlpha = true))

/-- The beginnings of words, but for the empty one. -/
def beginnings (words : List String) : Finset (List Char) :=
  (words.flatMap (·.toList.inits)).toFinset.erase []

theorem mem_beginnings {words : List String} {p : List Char} :
    p ∈ beginnings words ↔ p ≠ [] ∧ ∃ w ∈ words, p <+: w.toList := by
  simp [beginnings]

theorem exists_slots_iff {cs : List Char} :
    (∃ slots : List (Fin 52), cs = slots.map letter) ↔ cs.all Char.isAlpha = true := by
  induction cs with
  | nil => exact ⟨fun _ => rfl, fun _ => ⟨[], rfl⟩⟩
  | cons c cs ih =>
    rw [List.all_cons, Bool.and_eq_true, ← ih, ← isSome_slot?, Option.isSome_iff_exists]
    constructor
    · rintro ⟨slots, h⟩
      obtain ⟨s, slots, rfl, rfl, rfl⟩ := List.map_eq_cons_iff.mp h.symm
      exact ⟨⟨s, slot?_letter s⟩, slots, rfl⟩
    · rintro ⟨⟨s, hs⟩, slots, rfl⟩
      exact ⟨s :: slots, by rw [slot?_eq_some.mp hs, List.map_cons]⟩

theorem isWord_iff {w : String} :
    IsWord w ↔ ∃ slots : List (Fin 52), slots ≠ [] ∧ w.toList = slots.map letter := by
  rw [IsWord, ← exists_slots_iff]
  constructor
  · rintro ⟨hne, slots, hw⟩
    refine ⟨slots, ?_, hw⟩
    rintro rfl
    exact hne (String.toList_eq_nil_iff.mp hw)
  · rintro ⟨slots, hne, hw⟩
    refine ⟨?_, slots, hw⟩
    rintro rfl
    exact hne (List.map_eq_nil_iff.mp hw.symm)

theorem exists_slots_of_mem {words : List String} {w : String} (h : w ∈ words.filter IsWord) :
    ∃ slots : List (Fin 52), slots ≠ [] ∧ w.toList = slots.map letter :=
  isWord_iff.mp (of_decide_eq_true (List.mem_filter.mp h).2)

theorem add_slots {slots : List (Fin 52)} (h : slots ≠ []) (t : WordTree) :
    t.add (slots.map letter) =
      ((t.descend slots).tree.mark (t.descend slots).node, (t.descend slots).added) := by
  rw [add, mapM_slot?.mpr rfl]
  cases slots with
  | nil => exact absurd rfl h
  | cons s slots => rfl

theorem add_of_not_isWord {w : String} (h : ¬IsWord w) (t : WordTree) :
    t.add w.toList = (t, false) := by
  unfold add
  split
  · rfl
  · rfl
  · next slots hne hslots =>
    exact absurd (isWord_iff.mpr ⟨slots, hne, mapM_slot?.mp hslots⟩) h

/-- Insertion tells whether it added a node. -/
theorem size_add (t : WordTree) (w : String) :
    t.nodes.size ≤ (t.add w.toList).1.nodes.size ∧
      ((t.add w.toList).2 = true ↔ t.nodes.size < (t.add w.toList).1.nodes.size) := by
  by_cases hw : IsWord w
  · obtain ⟨slots, hne, hslots⟩ := isWord_iff.mp hw
    rw [hslots, add_slots hne, size_mark]
    exact size_descend t slots
  · rw [add_of_not_isWord hw]
    simp

example : (ofWords ["func"]).grows "fun".toList = false ∧
    ((ofWords ["func"]).insert "fun".toList).contains "fun".toList = true := by decide +kernel

theorem lt_of_ends (h : t.ends i = true) : i < t.nodes.size := by
  by_contra hge
  rw [ends, Array.getElem?_eq_none (by omega)] at h
  cases h

/-- A word is added to those that end in the tree. -/
theorem Follows.ends_mark {slots q : List (Fin 52)} {paths' : List (List (Fin 52))}
    (hf : Follows (t.descend slots) paths slots paths') (h : t.Spells paths) :
    (∃ i, paths'[i]? = some q ∧
        ((t.descend slots).tree.mark (t.descend slots).node).ends i = true) ↔
      (∃ i, paths[i]? = some q ∧ t.ends i = true) ∨ q = slots := by
  have hends (i : Nat) : ((t.descend slots).tree.mark (t.descend slots).node).ends i = true ↔
      i = (t.descend slots).node ∨ t.ends i = true := by
    rw [WordTree.ends_mark (hf.spells.lt_size hf.here), ends_descend]
  obtain ⟨more, hmore⟩ := hf.le
  have hold {i : Nat} (hi : i < t.nodes.size) : paths'[i]? = paths[i]? := by
    rw [← hmore, List.getElem?_append_left (by rwa [h.length_eq])]
  simp only [hends]
  constructor
  · rintro ⟨i, hi, rfl | he⟩
    · exact .inr (Option.some.inj (hi.symm.trans hf.here))
    · exact .inl ⟨i, (hold (lt_of_ends he)).symm.trans hi, he⟩
  · rintro (⟨i, hi, he⟩ | rfl)
    · exact ⟨i, (hold (lt_of_ends he)).trans hi, .inr he⟩
    · exact ⟨_, hf.here, .inl rfl⟩

/-- What every insertion keeps: the nodes stand for the beginnings of the words that were let in,
and those words end at theirs. -/
structure Holds (t : WordTree) (words : List String) (paths : List (List (Fin 52))) : Prop where
  spells : t.Spells paths
  mem_iff : ∀ q, q ∈ paths ↔ q = [] ∨ ∃ w ∈ words.filter IsWord, q.map letter <+: w.toList
  ends_iff : ∀ q, (∃ i, paths[i]? = some q ∧ t.ends i = true) ↔
    String.ofList (q.map letter) ∈ words.filter IsWord

theorem holds_empty : empty.Holds [] [[]] where
  spells := spells_empty
  mem_iff q := by simp
  ends_iff q := by
    have hends (i : Nat) : empty.ends i = false := by
      cases i <;> simp [ends, empty, WordNode.blank]
    simp [hends]

namespace Holds

variable {words : List String}

theorem add (h : t.Holds words paths) (w : String)
    (hfit : (t.add w.toList).1.nodes.size ≤ UInt32.size) :
    ∃ paths', (t.add w.toList).1.Holds (words ++ [w]) paths' := by
  by_cases hw : IsWord w
  · obtain ⟨slots, hne, hslots⟩ := isWord_iff.mp hw
    have hfilter : (words ++ [w]).filter IsWord = words.filter IsWord ++ [w] := by simp [hw]
    rw [hslots, add_slots hne] at hfit ⊢
    simp only [size_mark] at hfit
    obtain ⟨paths', hf⟩ := follows_descend h.spells slots hfit
    refine ⟨paths', hf.spells.mark _, fun q => ?_, fun q => ?_⟩
    · have hstarts : q.map letter <+: w.toList ↔ q <+: slots := by
        rw [hslots, List.prefix_map_iff_of_injective letter_injective]
      rw [hf.mem_iff, h.mem_iff, hfilter]
      simp [hstarts, or_and_right, exists_or, or_assoc]
    · have hsame : String.ofList (q.map letter) = w ↔ q = slots := by
        rw [← String.toList_inj, String.toList_ofList, hslots]
        exact (List.map_injective_iff.mpr letter_injective).eq_iff
      rw [hfilter, List.mem_append, List.mem_singleton, hsame, ← h.ends_iff]
      exact hf.ends_mark h.spells
  · have hfilter : (words ++ [w]).filter IsWord = words.filter IsWord := by simp [hw]
    rw [add_of_not_isWord hw]
    exact ⟨paths, h.spells, hfilter ▸ h.mem_iff, hfilter ▸ h.ends_iff⟩

/-- The letters of the nodes are the beginnings of the words. -/
theorem mem_map_letter (h : t.Holds words paths) {cs : List Char} :
    cs ∈ paths.map (List.map letter) ↔
      cs = [] ∨ ∃ w ∈ words.filter IsWord, cs <+: w.toList := by
  rw [List.mem_map]
  constructor
  · rintro ⟨q, hq, rfl⟩
    rcases (h.mem_iff q).mp hq with rfl | hw
    · exact .inl rfl
    · exact .inr hw
  · rintro (rfl | ⟨w, hw, hcs⟩)
    · exact ⟨[], (h.mem_iff []).mpr (.inl rfl), rfl⟩
    · obtain ⟨slots, -, hslots⟩ := exists_slots_of_mem hw
      rw [hslots] at hcs
      obtain ⟨q, -, rfl⟩ := List.prefix_map_iff.mp hcs
      exact ⟨q, (h.mem_iff q).mpr (.inr ⟨w, hw, hslots ▸ hcs⟩), rfl⟩

theorem knows_iff (h : t.Holds words paths) {cs : List Char} :
    t.knows cs = true ↔ cs = [] ∨ ∃ w ∈ words.filter IsWord, cs <+: w.toList := by
  rw [← h.mem_map_letter, knows, Option.isSome_iff_exists, List.mem_map]
  simp only [h.spells.walk_eq_some]
  constructor
  · rintro ⟨i, q, rfl, hi⟩
    exact ⟨q, List.mem_of_getElem? hi, rfl⟩
  · rintro ⟨q, hq, rfl⟩
    obtain ⟨i, hi⟩ := List.mem_iff_getElem?.mp hq
    exact ⟨i, q, rfl, hi⟩

theorem contains_iff (h : t.Holds words paths) {w : String} :
    t.contains w.toList = true ↔ w ∈ words.filter IsWord := by
  rw [contains, Option.any_eq_true]
  simp only [h.spells.walk_eq_some]
  constructor
  · rintro ⟨i, ⟨q, hq, hi⟩, he⟩
    have hmem := (h.ends_iff q).mp ⟨i, hi, he⟩
    rwa [← hq, String.ofList_toList] at hmem
  · intro hw
    obtain ⟨slots, -, hslots⟩ := exists_slots_of_mem hw
    have hsame : String.ofList (slots.map letter) = w := by rw [← hslots, String.ofList_toList]
    obtain ⟨i, hi, he⟩ := (h.ends_iff slots).mpr (hsame ▸ hw)
    exact ⟨i, ⟨slots, hslots, hi⟩, he⟩

/-- The nodes below the root are as many as the beginnings. -/
theorem nodeCount_eq (h : t.Holds words paths) :
    t.nodeCount = 1 + (beginnings (words.filter IsWord)).card := by
  have hletters : ((paths.map (List.map letter)).toFinset.erase []) =
      beginnings (words.filter IsWord) := by
    ext cs
    rw [Finset.mem_erase, List.mem_toFinset, h.mem_map_letter, mem_beginnings]
    tauto
  have hroot : [] ∈ (paths.map (List.map letter)).toFinset :=
    List.mem_toFinset.mpr (h.mem_map_letter.mpr (.inl rfl))
  have hnodup : (paths.map (List.map letter)).Nodup :=
    h.spells.nodup.map (List.map_injective_iff.mpr letter_injective)
  rw [nodeCount, ← hletters, Nat.add_comm, Finset.card_erase_add_one hroot,
    List.toFinset_card_of_nodup hnodup, List.length_map, h.spells.length_eq]

end Holds

theorem ofWords_concat (words : List String) (w : String) :
    ofWords (words ++ [w]) = ((ofWords words).add w.toList).1 := by
  rw [ofWords, List.foldl_concat]
  rfl

/-- After any insertions. -/
theorem holds_ofWords (words : List String) (hsize : (ofWords words).nodeCount ≤ UInt32.size) :
    ∃ paths, (ofWords words).Holds words paths := by
  induction words using List.reverseRecOn with
  | nil => exact ⟨[[]], holds_empty⟩
  | append_singleton words w ih =>
    rw [ofWords_concat] at hsize ⊢
    have hle := ((ofWords words).size_add w).1
    obtain ⟨paths, h⟩ := ih (hle.trans hsize)
    exact h.add w hsize

theorem isWord_of_reserved : ∀ w ∈ TokenKind.reserved.map (·.1), IsWord w := by decide

/-- The tree of the reserved words has those that have a kind of token. -/
theorem contains_reserved_eq (w : String) :
    reserved.contains w.toList = (TokenKind.ofReserved? w).isSome := by
  have hsize : reserved.nodeCount ≤ UInt32.size := by decide +kernel
  obtain ⟨paths, h⟩ := holds_ofWords _ hsize
  rw [Bool.eq_iff_iff, reserved, h.contains_iff,
    List.filter_eq_self.mpr fun w hw => decide_eq_true (isWord_of_reserved w hw)]
  simp [TokenKind.ofReserved?]

/-- Words are inserted one after the other. The tree then holds those of them that have letters
only, knows their beginnings, and has a node for every beginning; a further insertion tells whether
it adds a node, and leaves the tree as it is if the word is none. So the tree of the reserved words
holds exactly the texts that have a kind of token. -/
theorem tree_is_word_set (words : List String) (hsize : (ofWords words).nodeCount ≤ UInt32.size) :
    let t := ofWords words
    let held := words.filter IsWord
    (∀ w : String, t.contains w.toList = true ↔ w ∈ held) ∧
    (∀ p : String, t.knows p.toList = true ↔ p = "" ∨ ∃ w ∈ held, p.toList <+: w.toList) ∧
    t.nodeCount = 1 + (beginnings held).card ∧
    (∀ w : String,
      ((t.add w.toList).2 = true ↔ t.nodeCount < (t.add w.toList).1.nodeCount) ∧
        (IsWord w ∨ t.add w.toList = (t, false))) ∧
    ∀ w : String, reserved.contains w.toList = (TokenKind.ofReserved? w).isSome := by
  intro t held
  obtain ⟨paths, h⟩ := holds_ofWords words hsize
  refine ⟨fun w => h.contains_iff, fun p => ?_, h.nodeCount_eq, fun w => ⟨?_, ?_⟩,
    contains_reserved_eq⟩
  · rw [h.knows_iff, String.toList_eq_nil_iff]
  · exact (t.size_add w).2
  · by_cases hw : IsWord w
    · exact .inl hw
    · exact .inr (add_of_not_isWord hw t)

/-- One word is the beginning of another, and one is not of letters only. -/
theorem tree_is_word_set_func_fun :
    let t := ofWords ["func", "x1", "fun"]
    t.nodeCount = 5 ∧ t.add "fun".toList = (t, false) ∧ (t.add "for".toList).2 = true ∧
      (∀ w : String, t.contains w.toList = true ↔ w ∈ ["func", "x1", "fun"].filter IsWord) ∧
      t.nodeCount = 1 + (beginnings (["func", "x1", "fun"].filter IsWord)).card := by
  intro t
  have hsize : t.nodeCount ≤ UInt32.size := by decide +kernel
  obtain ⟨hcontains, -, hcount, -, -⟩ := tree_is_word_set ["func", "x1", "fun"] hsize
  exact ⟨by decide +kernel, by decide +kernel, by decide +kernel, hcontains, hcount⟩

end WordTree

end ThreeAddress
