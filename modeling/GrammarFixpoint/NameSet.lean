import Std.Data.ExtTreeSet

/-! Sets of symbol names. Equal members make equal sets, and the members are
listed in ascending order by code point, which is the order every table and
every trace of this library shows. In a table in that order a name is found by
halving. -/

namespace GrammarFixpoint

abbrev NameSet := Std.ExtTreeSet String

namespace NameSet

def ofList (names : List String) : NameSet := Std.ExtTreeSet.ofList names

@[simp] theorem mem_ofList {names : List String} {name : String} :
    name ∈ ofList names ↔ name ∈ names := by
  simp [ofList]

@[simp] theorem contains_ofList {names : List String} :
    (ofList names).contains = names.contains := by
  funext name
  simp [ofList]

@[simp] theorem contains_eq_false_iff {set : NameSet} {name : String} :
    set.contains name = false ↔ name ∉ set := by
  rw [← Bool.not_eq_true, Std.ExtTreeSet.contains_iff_mem]

theorem toList_ascending (set : NameSet) : set.toList.Pairwise (· < ·) :=
  set.ordered_toList.imp fun h => compareOfLessAndEq_eq_lt.mp h

/-- Ascending lists are the same where their members are. -/
theorem eq_of_ascending {names others : List String} (ascending : names.Pairwise (· < ·))
    (ascending' : others.Pairwise (· < ·)) (same : ∀ name, name ∈ names ↔ name ∈ others) :
    names = others := by
  refine List.Perm.eq_of_pairwise ?_ ascending ascending' ?_
  · intro name other _ _ lt gt
    exact absurd gt (String.lt_asymm lt)
  · exact (List.perm_ext_iff_of_nodup (ascending.imp String.ne_of_lt)
      (ascending'.imp String.ne_of_lt)).mpr same

/-- A set is as large as a list of its members without repeats is long. -/
theorem length_eq_size {names : List String} {set : NameSet} (nodup : names.Nodup)
    (same : ∀ name, name ∈ names ↔ name ∈ set) : names.length = set.size := by
  have once : set.toList.Nodup := set.toList_ascending.imp String.ne_of_lt
  rw [← Std.ExtTreeSet.length_toList]
  refine ((List.perm_ext_iff_of_nodup nodup once).mpr fun name => ?_).length_eq
  rw [same, Std.ExtTreeSet.mem_toList]

end NameSet

/-- The position of a name in a part of an ascending table. The part is halved until
one name is left in it. -/
def bisect (names : Array String) (name : String) (base size : Nat)
    (inside : base + size ≤ names.size) : Option Nat :=
  if empty : size = 0 then none
  else if size = 1 then if names[base] = name then some base else none
  else if name < names[base + size / 2] then
    bisect names name base (size - size / 2) (by omega)
  else
    bisect names name (base + size / 2) (size - size / 2) (by omega)
termination_by size

/-- The position of a name in an ascending table. -/
def position? (names : List String) (name : String) : Option Nat :=
  bisect names.toArray name 0 names.length (by simp)

theorem getElem_lt_getElem_iff {names : Array String}
    (ascending : names.toList.Pairwise (· < ·)) {i j : Nat} (hi : i < names.size)
    (hj : j < names.size) : names[i] < names[j] ↔ i < j := by
  have grows {i j : Nat} (hi : i < names.size) (hj : j < names.size) (lt : i < j) :
      names[i] < names[j] := by
    rw [← Array.getElem_toList hi, ← Array.getElem_toList hj]
    exact List.pairwise_iff_getElem.mp ascending i j hi hj lt
  refine ⟨fun lt => ?_, grows hi hj⟩
  rcases Nat.lt_trichotomy i j with own | rfl | other
  · exact own
  · exact absurd lt (String.lt_irrefl _)
  · exact absurd lt (String.lt_asymm (grows hj hi other))

/-- The half that is left out does not hold the name. -/
theorem bisect_eq_some_iff {names : Array String} (ascending : names.toList.Pairwise (· < ·))
    {name : String} {base size : Nat} {inside : base + size ≤ names.size} {i : Nat} :
    bisect names name base size inside = some i ↔
      (base ≤ i ∧ i < base + size) ∧ ∃ h : i < names.size, names[i] = name := by
  fun_induction bisect names name base size inside with
  | case1 base inside =>
    simp only [reduceCtorEq, false_iff]
    omega
  | case2 base inside _ found =>
    rw [Option.some.injEq]
    constructor
    · rintro rfl
      exact ⟨by omega, by omega, found⟩
    · intro h
      omega
  | case3 base inside _ other =>
    simp only [reduceCtorEq, false_iff]
    rintro ⟨own, h, rfl⟩
    obtain rfl : i = base := by omega
    exact other rfl
  | case4 base size inside _ _ before ih =>
    rw [ih]
    refine and_congr_left ?_
    rintro ⟨h, rfl⟩
    rw [getElem_lt_getElem_iff ascending h] at before
    omega
  | case5 base size inside _ _ behind ih =>
    rw [ih]
    refine and_congr_left ?_
    rintro ⟨h, rfl⟩
    rw [getElem_lt_getElem_iff ascending h] at behind
    omega

theorem position?_eq_some_iff {names : List String} (ascending : names.Pairwise (· < ·))
    {name : String} {i : Nat} : position? names name = some i ↔ names[i]? = some name := by
  rw [position?, bisect_eq_some_iff ascending]
  simp only [Nat.zero_le, true_and, Nat.zero_add, List.size_toArray, List.getElem_toArray,
    List.getElem?_eq_some_iff]
  exact and_iff_right_of_imp fun ⟨h, _⟩ => h

/-- A list of names written as a set, in the order of the list. -/
def setNotation (names : List String) : String :=
  match names with
  | [] => "∅"
  | names => "\x7b" ++ ", ".intercalate names ++ "\x7d"

/-- One more name behind those that were seen, unless it is one of them. -/
def keepNew (kept : NameSet × Array String) (name : String) : NameSet × Array String :=
  if kept.1.contains name then kept else (kept.1.insert name, kept.2.push name)

/-- The names in the order in which they first stand in a list. Looking them up
in a set keeps this fast for long lists. -/
def firstAppearances (names : List String) : List String :=
  (names.foldl keepNew (∅, #[])).2.toList

private theorem foldl_keepNew (names : List String) (seen : NameSet) (kept : Array String) :
    (names.foldl keepNew (seen, kept)).2.toList =
      kept.toList ++ (names.filter fun name => decide (name ∉ seen)).eraseDups := by
  induction names generalizing seen kept with
  | nil => simp
  | cons name names ih =>
    by_cases h : name ∈ seen
    · simp [keepNew, h, ih]
    · simp only [List.foldl_cons, keepNew, Std.ExtTreeSet.contains_iff_mem, h, if_false, ih,
        List.filter_cons, not_false_eq_true, decide_true, if_true, List.eraseDups_cons,
        List.filter_filter, Array.toList_push, List.append_assoc, List.singleton_append]
      congr 3
      apply List.filter_congr
      intro other _
      by_cases he : other = name
      · simp [he]
      · have : name ≠ other := fun h => he h.symm
        simp [he, this]

theorem firstAppearances_eq_eraseDups (names : List String) :
    firstAppearances names = names.eraseDups := by
  have keepAll : names.filter (fun name => decide (name ∉ (∅ : NameSet))) = names :=
    List.filter_eq_self.mpr (by simp)
  have all := foldl_keepNew names ∅ #[]
  rw [keepAll] at all
  simpa [firstAppearances] using all

theorem mem_firstAppearances {names : List String} {name : String} :
    name ∈ firstAppearances names ↔ name ∈ names := by
  rw [firstAppearances_eq_eraseDups, List.mem_eraseDups]

theorem foldl_keepNew_same {names : List String} {name : String} (ne : names ≠ [])
    (same : ∀ other ∈ names, other = name) (kept : NameSet × Array String) :
    names.foldl keepNew kept = keepNew kept name := by
  have again (kept : NameSet × Array String) (name : String) :
      keepNew (keepNew kept name) name = keepNew kept name := by
    by_cases h : name ∈ kept.1 <;> simp [keepNew, h]
  induction names generalizing kept with
  | nil => exact absurd rfl ne
  | cons other names ih =>
    obtain ⟨rfl, same⟩ := List.forall_mem_cons.mp same
    cases names with
    | nil => rfl
    | cons other' names => rw [List.foldl_cons, ih (List.cons_ne_nil other' names) same, again]

/-- Where each item only repeats one name, the items appear in the order of these names. -/
theorem firstAppearances_flatMap {α : Type} {names : α → List String} {name : α → String}
    {items : List α}
    (own : ∀ item ∈ items, names item ≠ [] ∧ ∀ other ∈ names item, other = name item) :
    firstAppearances (items.flatMap names) = firstAppearances (items.map name) := by
  have run (kept : NameSet × Array String) :
      (items.flatMap names).foldl keepNew kept = (items.map name).foldl keepNew kept := by
    induction items generalizing kept with
    | nil => rfl
    | cons item items ih =>
      obtain ⟨first, own⟩ := List.forall_mem_cons.mp own
      rw [List.flatMap_cons, List.foldl_append, foldl_keepNew_same first.1 first.2, ih own,
        List.map_cons, List.foldl_cons]
  rw [firstAppearances, run, firstAppearances]

end GrammarFixpoint
