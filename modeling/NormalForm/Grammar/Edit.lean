import NormalForm.Grammar.Basic

namespace NormalForm

inductive Edit where
  | nonterminal (letter : Char)
  | terminal (letter : Char)
  | start (letter : Char)
  | production (head : Char) (text : List Char)
  /-- Forgets all symbols and productions, but not whether the start symbol is guarded. -/
  | clear
  deriving DecidableEq

namespace Grammar

def apply (g : Grammar) : Edit → Except EditError Grammar
  | .nonterminal A => g.withNonterminal A
  | .terminal a => g.withTerminal a
  | .start A => g.withStart A
  | .production head text => g.withProduction head text
  | .clear => .ok (empty g.guardsStart)

/-- The grammar after an edit that may be refused. -/
def after (g : Grammar) (edit : Edit) : Grammar :=
  match g.apply edit with
  | .ok edited => edited
  | .error _ => g

/-- The grammar after a history. -/
def afterAll (g : Grammar) (history : List Edit) : Grammar :=
  history.foldl after g

/-- Some history leads to the grammar from the one without symbols. -/
def Reachable (guardsStart : Bool) (g : Grammar) : Prop :=
  ∃ history : List Edit, g = (empty guardsStart).afterAll history

theorem reachable_empty (guardsStart : Bool) : Reachable guardsStart (empty guardsStart) :=
  ⟨[], rfl⟩

theorem Reachable.after {guardsStart : Bool} {g : Grammar} (reach : Reachable guardsStart g)
    (edit : Edit) : Reachable guardsStart (g.after edit) := by
  obtain ⟨history, rfl⟩ := reach
  exact ⟨history ++ [edit], by simp [afterAll, List.foldl_append]⟩

end Grammar

end NormalForm
