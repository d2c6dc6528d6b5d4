import NormalForm.Proofs.Load.Loadable

/-! # What is wrong with a text

Five lists of faults, one for each stage of loading, each said without the stage: the lines that
spell no rule, the symbols of pairs without a rule, the heads of the wrong case, the start symbol
without a rule, and the alternatives that are flawed or repeated. What is wrong with an alternative
does not depend on whether those before it were accepted. -/

namespace NormalForm.Load

open Unicode
open Grammar (Run Fresh)

/-- Each of some lines that should hold a rule and spells none. -/
def lineFaults (lines : List (List Char)) : List Fault :=
  ((lines.zipIdx 1).filter fun line => Rule.isWritten line.1).filterMap fun line =>
    match Rule.ofText line.2 line.1 with
    | .ok _ => none
    | .error e => some ⟨some line.2, .malformed e⟩

def syntaxFaults (text : List Char) : List Fault := lineFaults (Lines.split '\n' '\r' text)

/-- An alternative with the line and the head of its rule. -/
structure Alternative where
  line : Nat
  head : Char
  text : List Char
  deriving DecidableEq

/-- The alternatives of all rules, in the order of the file. -/
def alternatives (rules : List Rule) : List Alternative :=
  rules.flatMap fun rule => rule.alternatives.map (⟨rule.line, rule.head, ·⟩)

/-- Each occurrence of a symbol in a pair that is the head of no rule. -/
def undefinedFaults (rules : List Rule) : List Fault :=
  (alternatives rules).flatMap fun alternative =>
    match alternative.text with
    | [B, C] => ([B, C].filter (· ∉ headsOf rules)).map
        (⟨some alternative.line, .undefinedSymbol ·⟩)
    | _ => []

/-- The line of the first rule of a nonterminal. -/
def firstLine (rules : List Rule) (A : Char) : Option Nat :=
  (rules.find? (·.head = A)).map Rule.line

/-- Each head that is not uppercase, at its first rule. -/
def caseFaults (rules : List Rule) : List Fault :=
  ((headsOf rules).eraseDups.filter (!isUppercase ·)).map fun A =>
    ⟨firstLine rules A, .refused (.wrongCase (.nonterminal A))⟩

/-- The start symbol that is asked for, if it is the head of no rule. -/
def startFaults (mode : LoadMode) (rules : List Rule) : List Fault :=
  (mode.start.toList.filter (· ∉ headsOf rules)).map fun S =>
    ⟨none, .refused (.undefinedNonterminal S)⟩

/-- What is wrong with an alternative by itself: one symbol that is not lowercase, more than two
symbols, or a pair that misplaces the guarded start symbol. -/
def flaw? (mode : LoadMode) (rules : List Rule) (head : Char) : List Char → Option EditError
  | [a] => if isLowercase a then none else some (.undefinedTerminal a)
  | [B, C] => (chosenStart mode rules).bind fun S =>
    if mode.guardsStart ∧ head ≠ S ∧ (B = S ∨ C = S) then some (.misplacedStart S) else none
  | text => if 3 ≤ text.length then some (.notNormalForm text) else none

/-- The body that an alternative spells. -/
def spelled? : List Char → Option Body
  | [a] => some (.terminal a)
  | [B, C] => some (.pair B C)
  | _ => none

/-- What is wrong with an alternative after others: its flaw, or else that it repeats one. -/
def offence? (mode : LoadMode) (rules : List Rule) (earlier : List Alternative)
    (alternative : Alternative) : Option EditError :=
  (flaw? mode rules alternative.head alternative.text).or
    (if ∃ other ∈ earlier, other.head = alternative.head ∧ other.text = alternative.text then
      (spelled? alternative.text).map (.repeatedProduction alternative.head)
    else none)

/-- Each alternative that offends. -/
def productionFaults (mode : LoadMode) (rules : List Rule) : List Fault :=
  (alternatives rules).zipIdx.filterMap fun (alternative, i) =>
    (offence? mode rules ((alternatives rules).take i) alternative).map fun e =>
      ⟨some alternative.line, .refused e⟩

/-- The errors among results, in order. -/
def errorsOf {ε α : Type} (results : List (Except ε α)) : List ε :=
  results.filterMap fun
    | .ok _ => none
    | .error e => some e

theorem errorsOf_append {ε α : Type} (results more : List (Except ε α)) :
    errorsOf (results ++ more) = errorsOf results ++ errorsOf more :=
  List.filterMap_append

/-- A list that is not empty is reported as it is. -/
theorem eq_iff_of_ne_nil {α : Type} {found faults : List α} (faulty : found ≠ []) :
    found = faults ↔ faults ≠ [] ∧ found = faults :=
  ⟨fun same => ⟨same ▸ faulty, same⟩, And.right⟩

theorem gather_eq_error_iff {ε α : Type} {results : List (Except ε α)} {errors : List ε} :
    gather results = .error errors ↔ errors ≠ [] ∧ errorsOf results = errors := by
  induction results generalizing errors with
  | nil =>
    simp only [gather, errorsOf, List.filterMap_nil, reduceCtorEq, false_iff, not_and]
    exact fun faulty clean => faulty clean.symm
  | cons result rest ih =>
    cases result with
    | ok a =>
      have skip : errorsOf (.ok a :: rest) = errorsOf rest := rfl
      rw [skip, ← ih]
      cases hg : gather rest <;> simp [gather, hg, Except.map]
    | error e =>
      have first : errorsOf (.error e :: rest) = e :: errorsOf rest := rfl
      rw [first]
      cases hg : gather rest with
      | ok found =>
        have clean : errorsOf rest = [] := by
          rw [gather_eq_ok_iff.mp hg, errorsOf, List.filterMap_map]
          exact List.filterMap_eq_nil_iff.mpr fun _ _ => rfl
        simp only [gather, hg, clean, Except.error.injEq]
        exact eq_iff_of_ne_nil (List.cons_ne_nil _ _)
      | error es =>
        obtain ⟨_, same⟩ := ih.mp hg
        simp only [gather, hg, same, Except.error.injEq]
        exact eq_iff_of_ne_nil (List.cons_ne_nil _ _)

theorem errorsOf_scanLines (lines : List (List Char)) :
    errorsOf (scanLines 1 (lines.map some)) = lineFaults lines := by
  rw [scanLines_some, errorsOf, List.filterMap_map, lineFaults]
  apply List.filterMap_congr
  intro line _
  cases h : Rule.ofText line.2 line.1 <;> simp [scanLine, h]

theorem readRules_eq_error_iff {text : List Char} {faults : List Fault} :
    readRules (Lines.ofText text) = .error faults ↔ faults ≠ [] ∧ syntaxFaults text = faults := by
  rw [readRules, gather_eq_error_iff, Lines.ofText, errorsOf_scanLines]
  rfl

variable {mode : LoadMode} {rules : List Rule} {g : Grammar}

theorem undefinedSymbols_eq (rules : List Rule) :
    undefinedSymbols rules = undefinedFaults rules := by
  simp only [undefinedSymbols, undefinedFaults, alternatives, List.flatMap_assoc, List.flatMap_map]
  apply List.flatMap_congr
  intro rule _
  rw [List.filter_flatMap, List.map_flatMap]
  apply List.flatMap_congr
  intro text _
  rcases text with _ | ⟨B, _ | ⟨C, _ | ⟨D, rest⟩⟩⟩ <;> rfl

theorem grant_eq_error_iff {requests : List Request} {faults : List Fault} :
    grant g requests = .error faults ↔ faults ≠ [] ∧ (carryOut g requests).2 = faults := by
  unfold grant
  split
  · rename_i last h
    simp only [h, reduceCtorEq, false_iff, not_and]
    exact fun faulty clean => faulty clean.symm
  · rename_i last found faulty h
    simp only [h, Except.error.injEq]
    exact eq_iff_of_ne_nil faulty

theorem carryOut_append (g : Grammar) (first second : List Request) :
    (carryOut g (first ++ second)).2 =
      (carryOut g first).2 ++ (carryOut (carryOut g first).1 second).2 := by
  induction first generalizing g with
  | nil => rfl
  | cons request rest ih =>
    cases h : g.apply request.edit with
    | ok m => simp only [List.cons_append, carryOut, h, ih]
    | error e => simp only [List.cons_append, carryOut, h, ih]

/-- Heads that are new and differ are refused for their case only, and whether one is refused does
not matter to those after it. -/
theorem carryOut_heads {found : List Rule} (fresh : Fresh g.nonterminals (headsOf found)) :
    let after := carryOut g (found.map fun rule => ⟨some rule.line, .nonterminal rule.head⟩)
    after.1.terminals = g.terminals ∧
      after.2 = (found.filter (!isUppercase ·.head)).map fun rule =>
        ⟨some rule.line, .refused (.wrongCase (.nonterminal rule.head))⟩ := by
  induction found generalizing g with
  | nil => exact ⟨rfl, rfl⟩
  | cons rule rest ih =>
    obtain ⟨new, fresh⟩ := Grammar.fresh_cons.mp fresh
    cases upper : isUppercase rule.head with
    | true =>
      have accepted := Grammar.apply_of_step (.nonterminal upper new)
      simpa [carryOut, accepted, upper] using ih fresh
    | false =>
      have refused : g.apply (.nonterminal rule.head) =
          .error (.wrongCase (.nonterminal rule.head)) := by
        simp [Grammar.apply, Grammar.withNonterminal, upper]
      have others : Fresh g.nonterminals (headsOf rest) :=
        ⟨fresh.1, fun c hc known => fresh.2 c hc (List.mem_append_left _ known)⟩
      simpa [carryOut, refused, upper] using ih others

/-- The first element for a key is the one that a search for the key finds. -/
theorem find_of_mem_firstBy {α : Type} {key : α → Char} {l : List α} {a : α}
    (h : a ∈ firstBy key l) : l.find? (key · = key a) = some a := by
  induction l with
  | nil => cases h
  | cons b rest ih =>
    rcases List.mem_cons.mp h with rfl | h
    · simp
    · obtain ⟨h, differ⟩ := List.mem_filter.mp h
      have differ : key b ≠ key a := by simpa using Ne.symm (bne_iff_ne.mp differ)
      rw [List.find?_cons_of_neg (by simpa using differ)]
      exact ih h

theorem caseFaults_eq (rules : List Rule) :
    ((firstBy Rule.head rules).filter (!isUppercase ·.head)).map (fun rule =>
      (⟨some rule.line, .refused (.wrongCase (.nonterminal rule.head))⟩ : Fault)) =
        caseFaults rules := by
  rw [caseFaults, headsOf, ← firstBy_map, List.filter_map, List.map_map]
  apply List.map_congr_left
  intro rule hr
  have found := find_of_mem_firstBy (List.mem_filter.mp hr).1
  simp [firstLine, found]

/-- The terminals are never refused: they are lowercase, and each is registered once. -/
theorem carryOut_letters (fresh : g.terminals = []) :
    (carryOut g ((firstBy Prod.snd (rules.flatMap newTerminals)).map fun (line, c) =>
      ⟨some line, .terminal c⟩)).2 = [] := by
  have new : Fresh g.terminals (newLetters rules) := ⟨nodup_eraseDups _, by simp [fresh]⟩
  have run := Grammar.run_terminals.mpr ⟨fun a ha => (mem_newLetters.mp ha).2, new, rfl⟩
  rw [← letterRequests_edits] at run
  rw [carryOut_faultless.mpr run]

theorem grant_symbols_error {faults : List Fault} :
    grant (.empty mode.guardsStart) (symbolRequests rules) = .error faults ↔
      faults ≠ [] ∧ caseFaults rules = faults := by
  have fresh : Fresh (Grammar.empty mode.guardsStart).nonterminals
      (headsOf (firstBy Rule.head rules)) := by
    rw [headsOf, firstBy_map]
    exact ⟨nodup_eraseDups _, by simp [Grammar.empty]⟩
  obtain ⟨terminals, refused⟩ := carryOut_heads fresh
  rw [grant_eq_error_iff, symbolRequests, carryOut_append, refused, carryOut_letters terminals,
    caseFaults_eq, List.append_nil]

theorem grant_start_error {faults : List Fault} :
    grant (registered mode rules) (startRequests mode rules) = .error faults ↔
      faults ≠ [] ∧ startFaults mode rules = faults := by
  have known (S : Char) : S ∈ (registered mode rules).nonterminals ↔ S ∈ headsOf rules :=
    List.mem_eraseDups
  rw [grant_eq_error_iff]
  cases hm : mode.start with
  | some S =>
    by_cases hS : S ∈ headsOf rules
    · simp [startRequests, startFaults, hm, carryOut, Grammar.apply, Grammar.withStart, known, hS]
    · simp [startRequests, startFaults, hm, carryOut, Grammar.apply, Grammar.withStart, known, hS]
  | none =>
    cases rules with
    | nil => simp [startRequests, startFaults, hm, carryOut]
    | cons rule rest =>
      have first : rule.head ∈ headsOf (rule :: rest) := List.mem_cons_self ..
      simp [startRequests, startFaults, hm, carryOut, Grammar.apply, Grammar.withStart, known,
        first]

end NormalForm.Load
