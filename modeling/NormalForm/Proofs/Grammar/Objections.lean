import NormalForm.Proofs.Grammar.Step

namespace NormalForm.Grammar

open Unicode

/-- The error before others, if the flaw is there. -/
def objectIf (flaw : Prop) [Decidable flaw] (e : EditError) (others : List EditError) :
    List EditError :=
  if flaw then e :: others else others

/-- The error of a pair that misplaces a guarded start symbol, before others. -/
def objectToStart (g : Grammar) (head B C : Char) (others : List EditError) : List EditError :=
  match g.start with
  | none => others
  | some S =>
    objectIf (g.guardsStart = true ∧ head ≠ S ∧ (B = S ∨ C = S)) (.misplacedStart S) others

def pairObjections (g : Grammar) (head B C : Char) : List EditError :=
  objectIf (B ∉ g.nonterminals) (.undefinedNonterminal B) <|
  objectIf (C ∉ g.nonterminals) (.undefinedNonterminal C) <|
  g.objectToStart head B C <|
  objectIf (Body.pair B C ∈ g.bodies head) (.repeatedProduction head (.pair B C)) []

def letterObjections (g : Grammar) (head a : Char) : List EditError :=
  objectIf (a ∉ g.terminals) (.undefinedTerminal a) <|
  objectIf (Body.terminal a ∈ g.bodies head) (.repeatedProduction head (.terminal a)) []

/-- Everything that speaks against an edit. -/
def objections (g : Grammar) : Edit → List EditError
  | .nonterminal A =>
    objectIf (isUppercase A = false) (.wrongCase (.nonterminal A)) <|
    objectIf (A ∈ g.nonterminals) (.alreadyDefined (.nonterminal A)) []
  | .terminal a =>
    objectIf (isLowercase a = false) (.wrongCase (.terminal a)) <|
    objectIf (a ∈ g.terminals) (.alreadyDefined (.terminal a)) []
  | .start A => objectIf (A ∉ g.nonterminals) (.undefinedNonterminal A) []
  | .production head text =>
    objectIf (head ∉ g.nonterminals) (.undefinedNonterminal head) <|
    match text with
    | [a] => g.letterObjections head a
    | [B, C] => g.pairObjections head B C
    | _ => [.notNormalForm text]
  | .clear => []

/-- The outcome is the first of the errors, or a result if there is none. -/
inductive Settles {α : Type} : Except EditError α → List EditError → Prop
  | ok (a : α) : Settles (.ok a) []
  | error (e : EditError) (others : List EditError) : Settles (.error e) (e :: others)

namespace Settles

variable {α β : Type} {outcome : Except EditError α} {errors : List EditError} {e : EditError}
  {flaw : Prop} [Decidable flaw]

theorem error_iff (h : Settles outcome errors) : outcome = .error e ↔ errors.head? = some e := by
  cases h <;> simp

theorem ok_iff (h : Settles outcome errors) : (∃ a, outcome = .ok a) ↔ errors = [] := by
  cases h <;> simp

/-- A check comes before the checks after it. -/
theorem check (h : ¬ flaw → Settles outcome errors) :
    Settles (if flaw then .error e else outcome) (objectIf flaw e errors) := by
  unfold objectIf
  split
  · exact .error e errors
  · rename_i clean
    exact h clean

end Settles

variable {g : Grammar}

theorem misplaced_eq_some_iff {head B C S : Char} : g.misplaced? head B C = some S ↔
    g.start = some S ∧ g.guardsStart = true ∧ head ≠ S ∧ (B = S ∨ C = S) := by
  simp [misplaced?, Option.filter_eq_some_iff, and_assoc]

theorem settles_start {α : Type} {outcome : Except EditError α} {errors : List EditError}
    (g : Grammar) (head B C : Char) (h : Settles outcome errors) :
    Settles (match g.misplaced? head B C with
      | some S => .error (.misplacedStart S)
      | none => outcome) (g.objectToStart head B C errors) := by
  unfold objectToStart
  cases start : g.start with
  | none => simpa [misplaced?, start] using h
  | some S =>
    by_cases misplaced : g.guardsStart = true ∧ head ≠ S ∧ (B = S ∨ C = S)
    · rw [misplaced_eq_some_iff.mpr ⟨start, misplaced⟩]
      simp only [objectIf, if_pos misplaced]
      exact .error _ _
    · have kept : g.misplaced? head B C = none := by
        apply Option.eq_none_iff_forall_ne_some.mpr
        intro T found
        obtain ⟨same, found⟩ := misplaced_eq_some_iff.mp found
        cases start.symm.trans same
        exact misplaced found
      simpa [kept, objectIf, if_neg misplaced] using h

/-- What is made of a right-hand side that is read. -/
def acceptBody (g : Grammar) (head : Char) (body : Body) : Except EditError Grammar :=
  if body ∈ g.bodies head then .error (.repeatedProduction head body) else .ok (g.append head body)

theorem withProduction_eq (g : Grammar) (head : Char) (text : List Char) :
    g.withProduction head text =
      if head ∉ g.nonterminals then .error (.undefinedNonterminal head)
      else (g.readBody head text).bind (g.acceptBody head) := by
  unfold withProduction
  cases g.readBody head text <;> rfl

theorem bind_ite {α β : Type} {flaw : Prop} [Decidable flaw] {e : EditError}
    {outcome : Except EditError α} {next : α → Except EditError β} :
    (if flaw then .error e else outcome).bind next =
      if flaw then .error e else outcome.bind next := by
  split <;> rfl

theorem settles_acceptBody (g : Grammar) (head : Char) (body : Body) :
    Settles (g.acceptBody head body)
      (objectIf (body ∈ g.bodies head) (.repeatedProduction head body) []) :=
  .check fun _ => .ok _

theorem settles_letter (head a : Char) :
    Settles ((g.readBody head [a]).bind (g.acceptBody head)) (g.letterObjections head a) := by
  simp only [readBody, ← ite_not (a ∈ g.terminals), bind_ite]
  exact .check fun _ => settles_acceptBody g head (.terminal a)

theorem settles_pair (head B C : Char) :
    Settles ((g.readBody head [B, C]).bind (g.acceptBody head)) (g.pairObjections head B C) := by
  simp only [readBody, bind_ite]
  refine .check fun _ => .check fun _ => ?_
  have last := settles_start g head B C (settles_acceptBody g head (.pair B C))
  cases misplaced : g.misplaced? head B C with
  | none => simpa only [misplaced, Except.bind] using last
  | some S => simpa only [misplaced, Except.bind] using last

/-- An edit that nothing speaks against is accepted, and another is refused for the first thing. -/
theorem settles_apply (g : Grammar) (edit : Edit) : Settles (g.apply edit) (g.objections edit) := by
  cases edit with
  | nonterminal A =>
    simp only [apply, withNonterminal, Bool.not_eq_true']
    exact .check fun _ => .check fun _ => .ok _
  | terminal a =>
    simp only [apply, withTerminal, Bool.not_eq_true']
    exact .check fun _ => .check fun _ => .ok _
  | start A =>
    simp only [apply, withStart, ← ite_not (A ∈ g.nonterminals)]
    exact .check fun _ => .ok _
  | production head text =>
    rw [apply, withProduction_eq]
    apply Settles.check
    intro _
    rcases text with _ | ⟨B, _ | ⟨C, _ | ⟨D, more⟩⟩⟩
    · exact .error _ _
    · exact settles_letter head B
    · exact settles_pair head B C
    · exact .error _ _
  | clear => exact .ok _

end NormalForm.Grammar
