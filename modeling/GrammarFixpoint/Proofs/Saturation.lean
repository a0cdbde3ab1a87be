import GrammarFixpoint.Analysis.Saturation
import GrammarFixpoint.Grammar.Tree
import GrammarFixpoint.Proofs.WellFormed

/-! What saturation finds. Measured by the height of a derivation tree, the set
after pass number `n` holds exactly the variables that have a tree of height at
most `n`, so the first pass that admits nothing shows that no higher tree admits
more. The loop is followed without its limit, which only bounds the recursion:
each pass takes candidates away, so the limit is never what ends it. Trees and
derivations of a string come to the same: a tree is read off from its leaves,
and a derivation is followed backwards from the string. Both criteria are
covered by one argument over the strings they accept. -/

namespace GrammarFixpoint

/-- The strings whose derivation meets a criterion. -/
def Criterion.Accepts : Criterion → List String → Prop
  | terminating, _ => True
  | nullable, word => word = []

namespace Criterion

variable {c : Criterion}

theorem accepts_nil : c.Accepts [] := by
  cases c
  · trivial
  · rfl

theorem accepts_append_iff {u v : List String} :
    c.Accepts (u ++ v) ↔ c.Accepts u ∧ c.Accepts v := by
  cases c
  · simp [Accepts]
  · exact List.append_eq_nil_iff

theorem accepts_singleton {name : String} (h : c.admitsTerminals = true) :
    c.Accepts [name] := by
  cases c
  · trivial
  · cases h

theorem admitsTerminals_of_accepts {word : List String} {name : String} (h : c.Accepts word)
    (mem : name ∈ word) : c.admitsTerminals = true := by
  cases c with
  | terminating => rfl
  | nullable =>
    rw [show word = [] from h] at mem
    exact absurd mem List.not_mem_nil

end Criterion

namespace Grammar

/-- A symbol at the root of a derivation tree of limited height whose leaves the
criterion counts. An alternative without variables makes a tree of height one. -/
def Grounded (g : Grammar) (c : Criterion) : Nat → Symbol → Prop
  | _, .terminal _ => c.admitsTerminals = true
  | 0, .variable _ => False
  | height + 1, .variable left =>
    ∃ alternative ∈ g.alternatives left, ∀ symbol ∈ alternative, g.Grounded c height symbol

variable {g : Grammar} {c : Criterion} {height : Nat}

theorem grounded_terminal {name : String} :
    g.Grounded c height (.terminal name) ↔ c.admitsTerminals = true := by
  cases height <;> exact Iff.rfl

theorem Grounded.succ {symbol : Symbol} (h : g.Grounded c height symbol) :
    g.Grounded c (height + 1) symbol := by
  induction height generalizing symbol with
  | zero =>
    rcases symbol with name | name
    · exact h
    · exact h.elim
  | succ height ih =>
    rcases symbol with name | name
    · exact h
    · obtain ⟨alternative, mem, parts⟩ := h
      exact ⟨alternative, mem, fun symbol occurs => ih (parts symbol occurs)⟩

theorem Grounded.mono {symbol : Symbol} {height' : Nat} (h : g.Grounded c height symbol)
    (le : height ≤ height') : g.Grounded c height' symbol := by
  induction le with
  | refl => exact h
  | step _ ih => exact ih.succ

theorem Grounded.exists_alternative {left : String} (h : g.Grounded c height (.variable left)) :
    ∃ height, ∃ alternative ∈ g.alternatives left,
      ∀ symbol ∈ alternative, g.Grounded c height symbol := by
  cases height with
  | zero => exact h.elim
  | succ height => exact ⟨height, h⟩

/-- Trees above the symbols of a form have a common bound. -/
theorem exists_common_height {form : List Symbol}
    (h : ∀ symbol ∈ form, ∃ height, g.Grounded c height symbol) :
    ∃ height, ∀ symbol ∈ form, g.Grounded c height symbol := by
  induction form with
  | nil => exact ⟨0, fun _ mem => absurd mem List.not_mem_nil⟩
  | cons first form ih =>
    obtain ⟨height, tree⟩ := h first List.mem_cons_self
    obtain ⟨height', trees⟩ := ih fun symbol mem => h symbol (List.mem_cons_of_mem _ mem)
    refine ⟨max height height', fun symbol mem => ?_⟩
    rcases List.mem_cons.mp mem with rfl | mem
    · exact tree.mono (Nat.le_max_left ..)
    · exact (trees symbol mem).mono (Nat.le_max_right ..)

/-- Where one more level admits no variable, no level does. -/
theorem Grounded.of_stable
    (stable : ∀ left, g.Grounded c (height + 1) (.variable left) →
      g.Grounded c height (.variable left))
    {height' : Nat} {symbol : Symbol} (h : g.Grounded c height' symbol) :
    g.Grounded c height symbol := by
  induction height' generalizing symbol with
  | zero =>
    rcases symbol with name | name
    · exact grounded_terminal.mpr h
    · exact h.elim
  | succ height' ih =>
    rcases symbol with name | name
    · exact grounded_terminal.mpr h
    · obtain ⟨alternative, mem, parts⟩ := h
      exact stable name ⟨alternative, mem, fun symbol occurs => ih (parts symbol occurs)⟩

/-! ## Trees and derivations -/

/-- Trees for the symbols of a form stand side by side as trees for the form. -/
theorem exists_forest {form : List Symbol}
    (h : ∀ symbol ∈ form, ∃ tree : g.Tree symbol, c.Accepts tree.word ∧ tree.height ≤ height) :
    ∃ forest : g.Forest form, c.Accepts forest.word ∧ forest.height ≤ height := by
  induction form with
  | nil => exact ⟨.nil, Criterion.accepts_nil, Nat.zero_le _⟩
  | cons first form ih =>
    obtain ⟨tree, accepted, low⟩ := h first List.mem_cons_self
    obtain ⟨forest, accepted', low'⟩ := ih fun symbol mem => h symbol (List.mem_cons_of_mem _ mem)
    exact ⟨.cons tree forest, Criterion.accepts_append_iff.mpr ⟨accepted, accepted'⟩,
      Nat.max_le.mpr ⟨low, low'⟩⟩

theorem Grounded.exists_tree {symbol : Symbol} (h : g.Grounded c height symbol) :
    ∃ tree : g.Tree symbol, c.Accepts tree.word ∧ tree.height ≤ height := by
  induction height generalizing symbol with
  | zero =>
    rcases symbol with name | name
    · exact ⟨.leaf name, Criterion.accepts_singleton h, Nat.le_refl _⟩
    · exact h.elim
  | succ height ih =>
    rcases symbol with name | name
    · exact ⟨.leaf name, Criterion.accepts_singleton h, Nat.zero_le _⟩
    · obtain ⟨alternative, own, parts⟩ := h
      obtain ⟨forest, accepted, low⟩ := exists_forest fun symbol occurs => ih (parts symbol occurs)
      exact ⟨.node own forest, accepted, Nat.succ_le_succ low⟩

mutual

theorem Tree.grounded {symbol : Symbol} (tree : g.Tree symbol) (accepted : c.Accepts tree.word) :
    g.Grounded c tree.height symbol := by
  cases tree with
  | leaf name =>
    exact grounded_terminal.mpr
      (Criterion.admitsTerminals_of_accepts accepted List.mem_cons_self)
  | node own parts => exact ⟨_, own, parts.grounded accepted⟩

theorem Forest.grounded {form : List Symbol} (forest : g.Forest form)
    (accepted : c.Accepts forest.word) : ∀ symbol ∈ form, g.Grounded c forest.height symbol := by
  cases forest with
  | nil => simp
  | cons first rest =>
    obtain ⟨own, others⟩ := Criterion.accepts_append_iff.mp accepted
    refine List.forall_mem_cons.mpr ⟨?_, fun symbol mem => ?_⟩
    · exact (first.grounded own).mono (Nat.le_max_left ..)
    · exact (rest.grounded others symbol mem).mono (Nat.le_max_right ..)

end

/-- A form whose symbols are all at the root of a tree derives a string. -/
theorem exists_word_of_grounded {form : List Symbol}
    (h : ∀ symbol ∈ form, ∃ height, g.Grounded c height symbol) :
    ∃ word, c.Accepts word ∧ g.Derives form (word.map .terminal) := by
  obtain ⟨height, trees⟩ := exists_common_height h
  obtain ⟨forest, accepted, -⟩ := exists_forest fun symbol mem => (trees symbol mem).exists_tree
  exact ⟨forest.word, accepted, forest.derives⟩

/-- Every symbol of a form that derives a string is at the root of a tree. The
derivation is followed from the string back to the form: what stands beside the
replaced variable stands in the next form too. -/
theorem Derives.exists_grounded {form : List Symbol} {word : List String}
    (h : g.Derives form (word.map .terminal)) (accepted : c.Accepts word) :
    ∀ symbol ∈ form, ∃ height, g.Grounded c height symbol := by
  generalize eq : word.map Symbol.terminal = last at h
  induction h with
  | refl form =>
    subst eq
    intro symbol mem
    obtain ⟨name, occurs, rfl⟩ := List.mem_map.mp mem
    exact ⟨0, grounded_terminal.mpr (Criterion.admitsTerminals_of_accepts accepted occurs)⟩
  | head step _ ih =>
    obtain @⟨before, after, left, alternative, own⟩ := step
    have trees := ih eq
    intro symbol mem
    rcases List.mem_append.mp mem with mem | mem
    · exact trees symbol (List.mem_append_left _ mem)
    rcases List.mem_cons.mp mem with rfl | mem
    · have parts : ∀ symbol ∈ alternative, ∃ height, g.Grounded c height symbol :=
        fun symbol occurs =>
          trees symbol (List.mem_append_right _ (List.mem_append_left _ occurs))
      obtain ⟨height, parts⟩ := exists_common_height parts
      exact ⟨height + 1, alternative, own, parts⟩
    · exact trees symbol (List.mem_append_right _ (List.mem_append_right _ mem))

theorem exists_grounded_iff {left : String} :
    (∃ height, g.Grounded c height (.variable left)) ↔
      ∃ word, c.Accepts word ∧ g.Generates left word := by
  constructor
  · intro h
    exact exists_word_of_grounded (List.forall_mem_singleton.mpr h)
  · intro h
    obtain ⟨word, accepted, steps⟩ := h
    exact steps.exists_grounded accepted _ List.mem_cons_self

end Grammar

namespace Saturation

variable {g : Grammar} {c : Criterion} {height : Nat} {admitted : NameSet}

/-- The set holds the variables with a tree of limited height. -/
def Level (g : Grammar) (c : Criterion) (height : Nat) (admitted : NameSet) : Prop :=
  ∀ left, left ∈ admitted ↔ g.Grounded c height (.variable left)

/-- The rules of the variables that are not in a set. -/
def Candidates (g : Grammar) (admitted : NameSet) (rules : List Rule) : Prop :=
  ∀ rule, rule ∈ rules ↔ rule.left ∈ g.table ∧
    rule.alternatives = g.alternatives rule.left ∧ rule.left ∉ admitted

theorem Level.qualifies_iff (level : Level g c height admitted) (symbol : Symbol) :
    c.qualifies admitted symbol = true ↔ g.Grounded c height symbol := by
  rcases symbol with name | name
  · exact Grammar.grounded_terminal.symm
  · rw [Criterion.qualifies, Std.ExtTreeSet.contains_iff_mem]
    exact level name

/-- The set after one more pass. -/
def grown (c : Criterion) (admitted : NameSet) (rules : List Rule) : NameSet :=
  admitted.insertMany ((rules.filterMap (license? c admitted)).map License.left)

/-- The rules that the pass after that looks at. -/
def waiting (admitted : NameSet) (rules : List Rule) : List Rule :=
  rules.filter fun rule => !admitted.contains rule.left

theorem passes_of_nil {rules : List Rule} (idle : rules.filterMap (license? c admitted) = [])
    (limit : Nat) : passes c limit admitted rules = [] := by
  cases limit with
  | zero => rfl
  | succ limit => rw [passes, idle]

theorem passes_of_ne_nil {rules : List Rule} (busy : rules.filterMap (license? c admitted) ≠ [])
    (limit : Nat) :
    passes c (limit + 1) admitted rules =
      ⟨rules.filterMap (license? c admitted), grown c admitted rules⟩ ::
        passes c limit (grown c admitted rules) (waiting (grown c admitted rules) rules) := by
  rw [passes]
  split
  · next idle => exact absurd idle busy
  · rfl

theorem mem_licenses {rules : List Rule} {left : String} :
    left ∈ (rules.filterMap (license? c admitted)).map License.left ↔
      ∃ rule ∈ rules, rule.left = left ∧
        ∃ alternative ∈ rule.alternatives, alternative.all (c.qualifies admitted) = true := by
  simp only [List.mem_map, List.mem_filterMap, license?, Option.map_eq_some_iff]
  constructor
  · intro h
    obtain ⟨license, ⟨rule, mem, alternative, found, rfl⟩, rfl⟩ := h
    have all := List.find?_some found
    exact ⟨rule, mem, rfl, alternative, List.mem_of_find?_eq_some found, all⟩
  · intro h
    obtain ⟨rule, mem, rfl, alternative, own, all⟩ := h
    have qualified : (rule.alternatives.find? fun alternative =>
        alternative.all (c.qualifies admitted)).isSome = true :=
      List.find?_isSome.mpr ⟨alternative, own, all⟩
    obtain ⟨first, found⟩ := Option.isSome_iff_exists.mp qualified
    exact ⟨⟨rule.left, first⟩, ⟨rule, mem, first, found, rfl⟩, rfl⟩

theorem mem_grown {rules : List Rule} {left : String} :
    left ∈ grown c admitted rules ↔
      left ∈ admitted ∨ left ∈ (rules.filterMap (license? c admitted)).map License.left := by
  rw [grown, Std.ExtTreeSet.mem_insertMany_list, List.contains_iff_mem]

/-- One pass adds the variables whose lowest tree is one level higher. -/
theorem Level.grown {rules : List Rule} (level : Level g c height admitted)
    (candidates : Candidates g admitted rules) :
    Level g c (height + 1) (grown c admitted rules) := by
  intro left
  simp only [mem_grown, mem_licenses, List.all_eq_true, level.qualifies_iff]
  constructor
  · intro h
    rcases h with old | new
    · exact ((level left).mp old).succ
    · obtain ⟨rule, mem, rfl, alternative, own, parts⟩ := new
      rw [((candidates rule).mp mem).2.1] at own
      exact ⟨alternative, own, parts⟩
  · intro h
    by_cases old : left ∈ admitted
    · exact .inl old
    · obtain ⟨alternative, own, parts⟩ := h
      have mem := (candidates ⟨left, g.alternatives left⟩).mpr
        ⟨Grammar.mem_table_of_mem_alternatives own, rfl, old⟩
      exact .inr ⟨_, mem, rfl, alternative, own, parts⟩

theorem Candidates.waiting {rules : List Rule} (candidates : Candidates g admitted rules) :
    Candidates g (Saturation.grown c admitted rules)
      (waiting (Saturation.grown c admitted rules) rules) := by
  intro rule
  simp only [Saturation.waiting, List.mem_filter, candidates rule, Bool.not_eq_true',
    ← Bool.not_eq_true, Std.ExtTreeSet.contains_iff_mem, mem_grown, not_or]
  constructor
  · intro h
    exact ⟨h.1.1, h.1.2.1, h.2⟩
  · intro h
    exact ⟨⟨h.1, h.2.1, h.2.2.1⟩, h.2.2⟩

/-- A pass with a license takes a candidate away. -/
theorem length_waiting_lt {rules : List Rule}
    (busy : rules.filterMap (license? c admitted) ≠ []) :
    (waiting (grown c admitted rules) rules).length < rules.length := by
  obtain ⟨license, mem⟩ := List.exists_mem_of_ne_nil _ busy
  have licensed := List.mem_map_of_mem (f := License.left) mem
  obtain ⟨rule, own, same, -⟩ := mem_licenses.mp licensed
  apply List.length_filter_lt_length_iff_exists.mpr
  refine ⟨rule, own, ?_⟩
  have gone : rule.left ∈ grown c admitted rules := mem_grown.mpr (.inr (same ▸ licensed))
  simp [gone]

/-- A pass without licenses shows that the set is complete. -/
theorem Level.stable {rules : List Rule} (level : Level g c height admitted)
    (candidates : Candidates g admitted rules)
    (idle : rules.filterMap (license? c admitted) = []) (left : String)
    (h : g.Grounded c (height + 1) (.variable left)) : g.Grounded c height (.variable left) := by
  have next := (level.grown candidates left).mpr h
  rw [mem_grown, idle, List.map_nil] at next
  exact (level left).mp (next.resolve_right List.not_mem_nil)

/-- The loop without a limit: pass after pass, up to one that has no license. -/
inductive Runs (c : Criterion) : NameSet → List Rule → List Pass → Prop where
  | done {admitted : NameSet} {rules : List Rule}
      (idle : rules.filterMap (license? c admitted) = []) : Runs c admitted rules []
  | pass {admitted : NameSet} {rules : List Rule} {passes : List Pass}
      (busy : rules.filterMap (license? c admitted) ≠ [])
      (rest : Runs c (grown c admitted rules) (waiting (grown c admitted rules) rules) passes) :
      Runs c admitted rules
        (⟨rules.filterMap (license? c admitted), grown c admitted rules⟩ :: passes)

/-- The passes end for want of licenses and not at the limit, for each of them takes a
candidate away. -/
theorem runs_passes {limit : Nat} {rules : List Rule} (enough : rules.length ≤ limit) :
    Runs c admitted rules (passes c limit admitted rules) := by
  induction limit generalizing admitted rules with
  | zero =>
    obtain rfl := List.length_eq_zero_iff.mp (Nat.le_zero.mp enough)
    exact .done rfl
  | succ limit ih =>
    by_cases idle : rules.filterMap (license? c admitted) = []
    · rw [passes_of_nil idle]
      exact .done idle
    · rw [passes_of_ne_nil idle]
      have fewer := length_waiting_lt idle
      exact .pass idle (ih (by omega))

theorem runs_run (c : Criterion) (g : Grammar) : Runs c ∅ g.sortedRules (run c g) :=
  runs_passes (Nat.le_refl _)

/-- Pass after pass the sets climb the levels: each pass looks at the level below its own. -/
theorem Runs.exists_level {rules : List Rule} {passes : List Pass}
    (run : Runs c admitted rules passes) (level : Level g c height admitted)
    (candidates : Candidates g admitted rules) {index : Nat} {pass : Pass}
    (h : passes[index]? = some pass) :
    ∃ below waiting, Level g c (height + index) below ∧ Candidates g below waiting ∧
      waiting.filterMap (license? c below) ≠ [] ∧
      pass = ⟨waiting.filterMap (license? c below), grown c below waiting⟩ := by
  induction run generalizing height index with
  | done => simp at h
  | @pass admitted rules _ busy _ ih =>
    cases index with
    | zero => exact ⟨admitted, rules, level, candidates, busy, (Option.some.inj h).symm⟩
    | succ index =>
      obtain ⟨below, later, level', rest⟩ := ih (level.grown candidates) candidates.waiting h
      rw [Nat.add_assoc, Nat.add_comm 1] at level'
      exact ⟨below, later, level', rest⟩

theorem Runs.length_le {rules : List Rule} {passes : List Pass}
    (run : Runs c admitted rules passes) : passes.length ≤ rules.length := by
  induction run with
  | done => exact Nat.zero_le _
  | pass busy _ ih =>
    have fewer := length_waiting_lt busy
    rw [List.length_cons]
    omega

/-- The last pass leaves nothing to admit. -/
theorem Runs.stable {rules : List Rule} {passes : List Pass} (run : Runs c admitted rules passes)
    (level : Level g c height admitted) (candidates : Candidates g admitted rules) (left : String)
    (h : g.Grounded c (height + passes.length + 1) (.variable left)) :
    g.Grounded c (height + passes.length) (.variable left) := by
  induction run generalizing height with
  | done none => exact level.stable candidates none left h
  | pass _ _ ih =>
    have shift (n : Nat) : height + (n + 1) = height + 1 + n := by omega
    rw [List.length_cons, shift] at h ⊢
    exact ih (level.grown candidates) candidates.waiting h

theorem level_empty : Level g c 0 ∅ := by
  intro left
  simp [Grammar.Grounded]

theorem candidates_sortedRules : Candidates g ∅ g.sortedRules := by
  intro rule
  obtain ⟨left, alternatives⟩ := rule
  simp only [Grammar.sortedRules, List.mem_map, Prod.exists, Rule.mk.injEq,
    Std.ExtTreeMap.mem_toList_iff_getElem?_eq_some]
  constructor
  · intro h
    obtain ⟨left, alternatives, found, rfl, rfl⟩ := h
    have mem : left ∈ g.table := Std.ExtTreeMap.mem_iff_isSome_getElem?.mpr (by rw [found]; rfl)
    rw [Grammar.getElem?_table mem] at found
    exact ⟨mem, (Option.some.inj found).symm, by simp⟩
  · intro h
    obtain ⟨mem, rfl, -⟩ := h
    exact ⟨left, g.alternatives left, Grammar.getElem?_table mem, rfl, rfl⟩

end Saturation

namespace Grammar

variable {g : Grammar} {c : Criterion}

/-- The result holds what the last pass admits. -/
theorem level_saturate :
    Saturation.Level g c (Saturation.run c g).length (g.saturate c).value := by
  show Saturation.Level g c _ (((Saturation.run c g).getLast?.map Pass.admitted).getD ∅)
  rw [List.getLast?_eq_getElem?]
  cases last : (Saturation.run c g)[(Saturation.run c g).length - 1]? with
  | none =>
    have : (Saturation.run c g).length = 0 := by
      have := List.getElem?_eq_none_iff.mp last
      omega
    rw [this]
    exact Saturation.level_empty
  | some pass =>
    have inside := (List.getElem?_eq_some_iff.mp last).1
    obtain ⟨below, waiting, level, candidates, -, rfl⟩ :=
      (Saturation.runs_run c g).exists_level Saturation.level_empty
        Saturation.candidates_sortedRules last
    have level := level.grown candidates
    rwa [Nat.zero_add, Nat.sub_add_cancel (by omega)] at level

theorem mem_saturate_iff_grounded {left : String} :
    left ∈ (g.saturate c).value ↔ ∃ height, g.Grounded c height (.variable left) := by
  rw [level_saturate left]
  constructor
  · exact fun h => ⟨_, h⟩
  · intro h
    obtain ⟨height, tree⟩ := h
    apply tree.of_stable
    intro left h
    have stable := (Saturation.runs_run c g).stable Saturation.level_empty
      Saturation.candidates_sortedRules left
    rw [Nat.zero_add] at stable
    exact stable h

/-- Saturation finds the variables that derive a string which the criterion accepts. -/
theorem mem_saturate_iff {left : String} :
    left ∈ (g.saturate c).value ↔ ∃ word, c.Accepts word ∧ g.Generates left word :=
  mem_saturate_iff_grounded.trans exists_grounded_iff

theorem mem_table_of_mem_saturate {left : String} (h : left ∈ (g.saturate c).value) :
    left ∈ g.table := by
  obtain ⟨height, tree⟩ := mem_saturate_iff_grounded.mp h
  obtain ⟨_, alternative, own, -⟩ := tree.exists_alternative
  exact mem_table_of_mem_alternatives own

/-- The form derives a string of terminals. -/
def Completes (g : Grammar) (form : List Symbol) : Prop :=
  ∃ word : List String, g.Derives form (word.map .terminal)

theorem Completes.trans {form last : List Symbol} (h : g.Completes last)
    (steps : g.Derives form last) : g.Completes form := by
  obtain ⟨word, rest⟩ := h
  exact ⟨word, steps.trans rest⟩

theorem Completes.head {form next : List Symbol} (h : g.Completes next)
    (step : g.Produces form next) : g.Completes form :=
  h.trans (.single step)

theorem mem_terminating_iff {left : String} :
    left ∈ g.terminating.value ↔ ∃ word, g.Generates left word := by
  rw [terminating, mem_saturate_iff]
  simp [Criterion.Accepts]

/-! ## The two sets -/

/-- A terminal of a derived form was there before or comes from a rule. -/
theorem Derives.terminal_mem {form last : List Symbol} (h : g.Derives form last) {name : String}
    (mem : Symbol.terminal name ∈ last) :
    Symbol.terminal name ∈ form ∨ name ∈ g.terminalNames := by
  induction h with
  | refl => exact .inl mem
  | head step _ ih =>
    obtain @⟨before, after, left, alternative, own⟩ := step
    rcases ih mem with occurs | listed
    · rcases List.mem_append.mp occurs with occurs | occurs
      · exact .inl (List.mem_append_left _ occurs)
      rcases List.mem_append.mp occurs with occurs | occurs
      · exact .inr (mem_terminalNames.mpr ⟨left, alternative, own, occurs⟩)
      · exact .inl (List.mem_append_right _ (List.mem_cons_of_mem _ occurs))
    · exact .inr listed

theorem Generates.letters {left : String} {word : List String} (h : g.Generates left word) :
    ∀ letter ∈ word, letter ∈ g.terminalNames := by
  intro letter mem
  refine (h.terminal_mem (List.mem_map_of_mem mem)).resolve_left ?_
  simp

/-- A variable is terminating if and only if it derives a string of terminals. -/
theorem terminating_iff_generates (g : Grammar) (name : String) :
    name ∈ g.terminating.value ↔
      name ∈ g.variableNames ∧ ∃ word : List String,
        (∀ letter ∈ word, letter ∈ g.terminalNames) ∧ g.Generates name word := by
  constructor
  · intro mem
    obtain ⟨word, steps⟩ := mem_terminating_iff.mp mem
    exact ⟨mem_variableNames.mpr (mem_table_of_mem_saturate mem), word, steps.letters, steps⟩
  · intro h
    obtain ⟨-, word, -, steps⟩ := h
    exact mem_terminating_iff.mpr ⟨word, steps⟩

/-- A variable is nullable if and only if it derives the empty string. -/
theorem nullable_iff_derives_nil (g : Grammar) (name : String) :
    name ∈ g.nullable.value ↔ name ∈ g.variableNames ∧ g.Derives [.variable name] [] := by
  constructor
  · intro mem
    obtain ⟨word, accepted, steps⟩ := mem_saturate_iff.mp mem
    rw [show word = [] from accepted] at steps
    exact ⟨mem_variableNames.mpr (mem_table_of_mem_saturate mem), steps⟩
  · intro h
    obtain ⟨-, steps⟩ := h
    exact mem_saturate_iff.mpr ⟨[], Criterion.accepts_nil, steps⟩

end Grammar

end GrammarFixpoint
