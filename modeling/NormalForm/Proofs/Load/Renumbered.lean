import NormalForm.Load.Basic
import NormalForm.Proofs.Outcome

namespace NormalForm

/-- The rule at another line. -/
def Rule.moved (move : Nat → Nat) (rule : Rule) : Rule := { rule with line := move rule.line }

/-- The fault at another line, if it is at one. -/
def Fault.moved (move : Nat → Nat) (fault : Fault) : Fault :=
  { fault with line := fault.line.map move }

def FileFault.moved (move : Nat → Nat) (fault : FileFault) : FileFault :=
  ⟨fault.toFault.moved move, fault.file⟩

namespace Load

def Request.moved (move : Nat → Nat) (request : Request) : Request :=
  { request with line := request.line.map move }

variable {mode : LoadMode} (move : Nat → Nat)

theorem ofText_moved (number : Nat) (text : List Char) :
    Rule.ofText (move number) text = (Rule.ofText number text).map (Rule.moved move) := by
  unfold Rule.ofText
  cases Token.scan text with
  | error e => rfl
  | ok tokens =>
    change Rule.ofTokens (move number) tokens = (Rule.ofTokens number tokens).map (Rule.moved move)
    unfold Rule.ofTokens
    split
    · rename_i head rest
      cases Rule.readAlternatives [] rest <;> rfl
    · rfl
    · rfl

/-- An outcome at another line. -/
def movedOutcome (outcome : Except Fault Rule) : Except Fault Rule :=
  (outcome.map (Rule.moved move)).mapError (Fault.moved move)

theorem scanLine_moved (number : Nat) (text : List Char) :
    scanLine (move number) text = movedOutcome move (scanLine number text) := by
  rw [scanLine, scanLine, ofText_moved]
  cases Rule.ofText number text <;> rfl

theorem gather_moved (outcomes : List (Except Fault Rule)) :
    gather (outcomes.map (movedOutcome move)) =
      ((gather outcomes).map (List.map (Rule.moved move))).mapError
        (List.map (Fault.moved move)) := by
  induction outcomes with
  | nil => rfl
  | cons outcome rest ih =>
    cases outcome with
    | ok rule =>
      change (gather (rest.map (movedOutcome move))).map (rule.moved move :: ·) = _
      rw [ih, gather]
      cases gather rest <;> rfl
    | error fault =>
      rw [List.map_cons]
      change gather (.error (fault.moved move) :: rest.map (movedOutcome move)) = _
      rw [gather, ih, gather]
      cases gather rest <;> rfl

theorem firstBy_comp {α β γ : Type} [BEq γ] (key : β → γ) (f : α → β) (l : List α) :
    firstBy key (l.map f) = (firstBy (key ∘ f) l).map f := by
  induction l with
  | nil => rfl
  | cons a rest ih =>
    rw [List.map_cons, firstBy, ih, firstBy, List.map_cons, List.filter_map]
    rfl

theorem undefinedSymbols_moved (rules : List Rule) :
    undefinedSymbols (rules.map (Rule.moved move)) =
      (undefinedSymbols rules).map (Fault.moved move) := by
  have heads : (rules.map (Rule.moved move)).map Rule.head = rules.map Rule.head := by
    rw [List.map_map]
    rfl
  simp only [undefinedSymbols, heads, List.flatMap_map, List.map_flatMap, List.map_map]
  rfl

theorem newTerminals_moved (rules : List Rule) :
    (rules.map (Rule.moved move)).flatMap newTerminals =
      (rules.flatMap newTerminals).map fun (line, c) => (move line, c) := by
  simp only [List.flatMap_map, List.map_flatMap, newTerminals, List.map_map]
  rfl

theorem symbolRequests_moved (rules : List Rule) :
    symbolRequests (rules.map (Rule.moved move)) =
      (symbolRequests rules).map (Request.moved move) := by
  have heads : Rule.head ∘ Rule.moved move = Rule.head := rfl
  have letters : Prod.snd ∘ (fun (line, c) => (move line, c) : Nat × Char → Nat × Char) =
      Prod.snd := rfl
  rw [symbolRequests, newTerminals_moved, firstBy_comp, firstBy_comp, heads, letters,
    symbolRequests, List.map_append, List.map_map, List.map_map, List.map_map, List.map_map]
  rfl

theorem startRequests_moved (rules : List Rule) :
    startRequests mode (rules.map (Rule.moved move)) =
      (startRequests mode rules).map (Request.moved move) := by
  cases hm : mode.start <;> cases rules <;> simp only [startRequests, hm] <;> rfl

theorem productionRequests_moved (rules : List Rule) :
    productionRequests (rules.map (Rule.moved move)) =
      (productionRequests rules).map (Request.moved move) := by
  simp only [productionRequests, List.flatMap_map, List.map_flatMap, List.map_map]
  rfl

theorem carryOut_moved (g : Grammar) (requests : List Request) :
    carryOut g (requests.map (Request.moved move)) =
      ((carryOut g requests).1, (carryOut g requests).2.map (Fault.moved move)) := by
  induction requests generalizing g with
  | nil => rfl
  | cons request rest ih =>
    have same : (request.moved move).edit = request.edit := rfl
    cases h : g.apply request.edit with
    | ok edited => simp only [List.map_cons, carryOut, same, h, ih]
    | error e =>
      simp only [List.map_cons, carryOut, same, h, ih]
      rfl

theorem grant_moved (g : Grammar) (requests : List Request) :
    grant g (requests.map (Request.moved move)) =
      (grant g requests).mapError (List.map (Fault.moved move)) := by
  rw [grant, carryOut_moved, grant]
  rcases carryOut g requests with ⟨last, _ | ⟨fault, faults⟩⟩ <;> rfl

theorem assemble_moved (rules : List Rule) : assemble mode (rules.map (Rule.moved move)) =
    (assemble mode rules).mapError (List.map (Fault.moved move)) := by
  simp only [assemble, undefinedSymbols_moved, symbolRequests_moved, startRequests_moved,
    productionRequests_moved, grant_moved]
  cases undefinedSymbols rules with
  | cons fault faults => rfl
  | nil =>
    cases grant (.empty mode.guardsStart) (symbolRequests rules) with
    | error faults => rfl
    | ok registered =>
      cases h : grant registered (startRequests mode rules) with
      | error faults => simp [h, bind, Except.bind]
      | ok started => simp [h, bind, Except.bind]

/-- Lines with the same outcomes at other numbers are loaded to the same. -/
theorem ofLines_moved {lines moved : List (Option (List Char))}
    (outcomes : scanLines 1 moved = (scanLines 1 lines).map (movedOutcome move)) :
    ofLines mode moved = (ofLines mode lines).mapError (List.map (Fault.moved move)) := by
  rw [ofLines, readRules, outcomes, gather_moved, ofLines, readRules]
  cases gather (scanLines 1 lines) with
  | error faults => rfl
  | ok rules => exact assemble_moved move rules

theorem inFile_moved (file : Path) (result : Except (List Fault) Grammar) :
    inFile file (result.mapError (List.map (Fault.moved move))) =
      (inFile file result).mapError (List.map (FileFault.moved move)) := by
  cases result with
  | ok g => rfl
  | error faults =>
    simp only [inFile, mapError_error, List.map_map]
    rfl

end Load

end NormalForm
