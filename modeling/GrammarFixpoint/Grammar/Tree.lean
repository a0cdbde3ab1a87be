import GrammarFixpoint.Grammar.Derivation

/-! Derivation trees. Over a variable stand, side by side, trees for the symbols of one
of its alternatives, and a terminal is a leaf. The empty alternative leaves nothing over
its variable, so the height counts variables along a path: an alternative without any
makes a tree of height one. The leaves from left to right are a string that the root
derives. -/

namespace GrammarFixpoint.Grammar

mutual

/-- A tree with a symbol at its root. -/
inductive Tree (g : Grammar) : Symbol → Type where
  | leaf (name : String) : Tree g (.terminal name)
  | node {left : String} {alternative : Alternative} (own : alternative ∈ g.alternatives left)
      (parts : Forest g alternative) : Tree g (.variable left)

/-- A tree for each symbol of a form. -/
inductive Forest (g : Grammar) : List Symbol → Type where
  | nil : Forest g []
  | cons {symbol : Symbol} {form : List Symbol} (first : Tree g symbol) (rest : Forest g form) :
      Forest g (symbol :: form)

end

variable {g : Grammar}

mutual

def Tree.height {symbol : Symbol} : g.Tree symbol → Nat
  | .leaf _ => 0
  | .node _ parts => parts.height + 1

/-- The height of the highest tree. -/
def Forest.height {form : List Symbol} : g.Forest form → Nat
  | .nil => 0
  | .cons first rest => max first.height rest.height

end

mutual

/-- The terminals at the leaves, from left to right. -/
def Tree.word {symbol : Symbol} : g.Tree symbol → List String
  | .leaf name => [name]
  | .node _ parts => parts.word

def Forest.word {form : List Symbol} : g.Forest form → List String
  | .nil => []
  | .cons first rest => first.word ++ rest.word

end

mutual

/-- The leaves of a tree are a string that its root derives. -/
theorem Tree.derives {symbol : Symbol} (tree : g.Tree symbol) :
    g.Derives [symbol] (tree.word.map .terminal) := by
  cases tree with
  | leaf name => exact .refl _
  | node own parts => exact (derives_alternative own).trans parts.derives

theorem Forest.derives {form : List Symbol} (forest : g.Forest form) :
    g.Derives form (forest.word.map .terminal) := by
  cases forest with
  | nil => exact .refl _
  | cons first rest =>
    rw [Forest.word, List.map_append]
    exact first.derives.append rest.derives

end

end GrammarFixpoint.Grammar
