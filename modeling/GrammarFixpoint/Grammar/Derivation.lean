import GrammarFixpoint.Grammar.Basic

/-! What a grammar means. A step replaces one variable of a sentential form,
in any place and by any of its alternatives; none of this looks at how the
analyses go about their work. A step can be taken inside a longer form, and
derivations can be put one behind the other or side by side. -/

namespace GrammarFixpoint.Grammar

/-- One variable replaced by one of its alternatives. -/
inductive Produces (g : Grammar) : List Symbol → List Symbol → Prop where
  | replace (before after : List Symbol) {left : String} {alternative : Alternative}
      (h : alternative ∈ g.alternatives left) :
      Produces g (before ++ .variable left :: after) (before ++ (alternative ++ after))

/-- Any number of steps, from the first one on. -/
inductive Derives (g : Grammar) : List Symbol → List Symbol → Prop where
  | refl (form : List Symbol) : Derives g form form
  | head {first next last : List Symbol} :
      Produces g first next → Derives g next last → Derives g first last

/-- A variable derives a string of terminals, the empty string included. -/
def Generates (g : Grammar) (left : String) (word : List String) : Prop :=
  g.Derives [.variable left] (word.map .terminal)

/-- A chain in which every variable is a whole alternative of the one before. -/
inductive UnitChain (g : Grammar) : String → String → Prop where
  | refl (name : String) : UnitChain g name name
  | tail {first middle last : String} :
      UnitChain g first middle → [Symbol.variable last] ∈ g.alternatives middle →
      UnitChain g first last

variable {g : Grammar} {u v w : List Symbol}

theorem Produces.within (h : g.Produces u v) (before after : List Symbol) :
    g.Produces (before ++ (u ++ after)) (before ++ (v ++ after)) := by
  cases h with
  | replace pre post h =>
    simpa using Produces.replace (before ++ pre) (post ++ after) h

theorem Derives.single (h : g.Produces u v) : g.Derives u v := .head h (.refl v)

theorem Derives.trans (h : g.Derives u v) (h' : g.Derives v w) : g.Derives u w := by
  induction h with
  | refl => exact h'
  | head step _ ih => exact .head step (ih h')

theorem Derives.within (h : g.Derives u v) (before after : List Symbol) :
    g.Derives (before ++ (u ++ after)) (before ++ (v ++ after)) := by
  induction h with
  | refl => exact .refl _
  | head step _ ih => exact .head (step.within before after) ih

theorem Derives.append {u' v' : List Symbol} (h : g.Derives u v) (h' : g.Derives u' v') :
    g.Derives (u ++ u') (v ++ v') := by
  have left := h.within [] u'
  have right := h'.within v []
  simp only [List.nil_append, List.append_nil] at left right
  exact left.trans right

/-- A variable derives each of its alternatives. -/
theorem derives_alternative {left : String} {alternative : Alternative}
    (h : alternative ∈ g.alternatives left) : g.Derives [.variable left] alternative := by
  simpa using Derives.single (Produces.replace [] [] h)

end GrammarFixpoint.Grammar
