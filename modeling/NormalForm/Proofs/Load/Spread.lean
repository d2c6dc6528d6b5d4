import NormalForm.Proofs.Load.Faults
import NormalForm.Proofs.Load.Layout
import NormalForm.Proofs.Rule.Reading

/-! # How alternatives are spread over lines

A rule with several alternatives comes to the same as a rule for each of them, one after the other.
So a text is loaded by its heads and alternatives in their order, and it does not matter which of
them stand on one line. -/

namespace NormalForm.Load

open Lines (Closed)
open Rule (Spelled)

variable {mode : LoadMode} {rules others : List Rule}

/-- The alternatives of rules as rules of their own, each at the line of its rule. -/
def singly (rules : List Rule) : List Rule :=
  rules.flatMap fun rule => rule.alternatives.map fun text => ⟨rule.line, rule.head, [text]⟩

theorem alternatives_singly (rules : List Rule) :
    alternatives (singly rules) = alternatives rules := by
  simp only [alternatives, singly, List.flatMap_assoc, List.flatMap_map]
  apply List.flatMap_congr
  intro rule _
  simp only [List.map_cons, List.map_nil]
  exact List.map_eq_flatMap.symm

theorem mem_heads_singly (filled : ∀ rule ∈ rules, rule.alternatives ≠ []) {c : Char} :
    c ∈ headsOf (singly rules) ↔ c ∈ headsOf rules := by
  simp only [headsOf, singly, List.mem_map, List.mem_flatMap]
  constructor
  · rintro ⟨_, ⟨rule, hr, text, _, rfl⟩, rfl⟩
    exact ⟨rule, hr, rfl⟩
  · rintro ⟨rule, hr, rfl⟩
    obtain ⟨text, ht⟩ := List.exists_mem_of_ne_nil _ (filled rule hr)
    exact ⟨_, ⟨rule, hr, text, ht, rfl⟩, rfl⟩

/-- Repeating an element that is to come first adds nothing. -/
theorem firstBy_repeat {α β : Type} [BEq β] [LawfulBEq β] (key : α → β) (a : α) (times : Nat)
    (rest : List α) :
    firstBy key (List.replicate (times + 1) a ++ rest) = firstBy key (a :: rest) := by
  induction times with
  | zero => rfl
  | succ times ih =>
    rw [List.replicate_succ, List.cons_append, firstBy, ih, firstBy, List.filter_cons_of_neg]
    · rw [List.filter_filter]
      simp
    · simp

theorem firstBy_repeated {α β γ : Type} [BEq γ] [LawfulBEq γ] (key : β → γ) (f : α → β)
    (times : α → Nat) {l : List α} (often : ∀ a ∈ l, times a ≠ 0) :
    firstBy key (l.flatMap fun a => List.replicate (times a) (f a)) = firstBy key (l.map f) := by
  induction l with
  | nil => rfl
  | cons a l ih =>
    obtain ⟨first, often⟩ := List.forall_mem_cons.mp often
    obtain ⟨more, hm⟩ := Nat.exists_eq_succ_of_ne_zero first
    rw [List.flatMap_cons, hm, firstBy_repeat, firstBy, ih often, List.map_cons, firstBy]

theorem undefinedSymbols_singly (filled : ∀ rule ∈ rules, rule.alternatives ≠ []) :
    undefinedSymbols (singly rules) = undefinedSymbols rules := by
  simp only [undefinedSymbols_eq, undefinedFaults, alternatives_singly, mem_heads_singly filled]

theorem symbolRequests_singly (filled : ∀ rule ∈ rules, rule.alternatives ≠ []) :
    symbolRequests (singly rules) = symbolRequests rules := by
  -- Heads are compared with their lines, of which the first for each head is kept.
  have heads (rules : List Rule) : (firstBy Rule.head rules).map
        (fun rule => (⟨some rule.line, .nonterminal rule.head⟩ : Request)) =
      (firstBy Prod.snd (rules.map fun rule => (rule.line, rule.head))).map
        fun head => ⟨some head.1, .nonterminal head.2⟩ := by
    rw [firstBy_comp, List.map_map]
    rfl
  have repeated : (singly rules).map (fun rule => (rule.line, rule.head)) =
      rules.flatMap fun rule => List.replicate rule.alternatives.length (rule.line, rule.head) := by
    simp only [singly, List.map_flatMap, List.map_map, Function.comp_def, List.map_const']
  have letters : (singly rules).flatMap newTerminals = rules.flatMap newTerminals := by
    simp only [singly, List.flatMap_assoc, List.flatMap_map, newTerminals]
    apply List.flatMap_congr
    intro rule _
    rw [← List.map_flatMap, ← List.filterMap_flatMap, List.flatMap_singleton', newTerminals]
  rw [symbolRequests, heads, repeated, firstBy_repeated, letters, symbolRequests, heads]
  intro rule hr
  simpa using filled rule hr

theorem startRequests_singly (filled : ∀ rule ∈ rules, rule.alternatives ≠ []) :
    startRequests mode (singly rules) = startRequests mode rules := by
  cases hm : mode.start with
  | some S => simp only [startRequests, hm]
  | none =>
    cases rules with
    | nil => rfl
    | cons rule rest =>
      obtain ⟨text, more, ha⟩ :=
        List.exists_cons_of_ne_nil (filled rule (List.mem_cons_self ..))
      simp only [startRequests, hm, singly, List.flatMap_cons, ha, List.map_cons, List.cons_append]

theorem assemble_singly (filled : ∀ rule ∈ rules, rule.alternatives ≠ []) :
    assemble mode (singly rules) = assemble mode rules := by
  rw [assemble, undefinedSymbols_singly filled, symbolRequests_singly filled,
    startRequests_singly filled, productionRequests_eq, alternatives_singly,
    ← productionRequests_eq, assemble]

/-- The grammar, or what is wrong without the lines. -/
def causesOf : Except (List Fault) Grammar → Except (List Cause) Grammar :=
  Except.mapError (List.map Fault.cause)

theorem causesOf_moved (move : Nat → Nat) (result : Except (List Fault) Grammar) :
    causesOf (result.mapError (List.map (Fault.moved move))) = causesOf result := by
  cases result with
  | ok g => rfl
  | error faults =>
    simp only [causesOf, mapError_error, List.map_map]
    rfl

theorem singly_moved (rules : List Rule) : (singly rules).map (Rule.moved fun _ => 0) =
    (productionsOf rules).map fun (head, text) => ⟨0, head, [text]⟩ := by
  simp only [singly, productionsOf, List.map_flatMap, List.map_map]
  rfl

/-- Only the productions matter, in their order. -/
theorem assemble_spread (filled : ∀ rule ∈ rules, rule.alternatives ≠ [])
    (filled' : ∀ rule ∈ others, rule.alternatives ≠ [])
    (same : productionsOf rules = productionsOf others) :
    causesOf (assemble mode rules) = causesOf (assemble mode others) := by
  rw [← assemble_singly filled, ← assemble_singly filled', ← causesOf_moved fun _ => 0,
    ← assemble_moved, singly_moved, same, ← singly_moved, assemble_moved, causesOf_moved]

/-- The rules among results, in order. -/
def rulesOf (outcomes : List (Except Fault Rule)) : List Rule :=
  outcomes.filterMap Except.toOption

theorem rulesOf_append (outcomes more : List (Except Fault Rule)) :
    rulesOf (outcomes ++ more) = rulesOf outcomes ++ rulesOf more :=
  List.filterMap_append

theorem gather_eq (outcomes : List (Except Fault Rule)) : gather outcomes =
    if errorsOf outcomes = [] then .ok (rulesOf outcomes) else .error (errorsOf outcomes) := by
  cases h : gather outcomes with
  | ok rules =>
    have all := gather_eq_ok_iff.mp h
    have clean : errorsOf outcomes = [] := by
      rw [all, errorsOf, List.filterMap_map]
      exact List.filterMap_eq_nil_iff.mpr fun _ _ => rfl
    have found : rulesOf outcomes = rules := by
      rw [all, rulesOf, List.filterMap_map]
      exact List.filterMap_some
    rw [if_pos clean, found]
  | error faults =>
    obtain ⟨faulty, rfl⟩ := gather_eq_error_iff.mp h
    rw [if_neg faulty]

theorem read_of_scanLines {number : Nat} {lines : List (Option (List Char))} {rule : Rule}
    (h : .ok rule ∈ scanLines number lines) : ∃ line text, Rule.ofText line text = .ok rule := by
  induction lines generalizing number with
  | nil => cases h
  | cons line lines ih =>
    cases line with
    | none => simp [scanLines] at h
    | some text =>
      rw [scanLines] at h
      split at h
      · rcases List.mem_cons.mp h with read | later
        · exact ⟨number, text, scanLine_eq_ok_iff.mp read.symm⟩
        · exact ih later
      · exact ih h

theorem filled_of_scanLines {number : Nat} {lines : List (Option (List Char))} :
    ∀ rule ∈ rulesOf (scanLines number lines), rule.alternatives ≠ [] := by
  intro rule hr
  obtain ⟨outcome, ho, found⟩ := List.mem_filterMap.mp hr
  cases outcome with
  | error fault => cases found
  | ok rule =>
    cases found
    obtain ⟨line, text, read⟩ := read_of_scanLines ho
    exact (Rule.alternatives_of_ofText read).1

/-- Lines with the same faults but for the numbers and with the same productions. -/
theorem ofLines_spread {lines moved : List (Option (List Char))}
    (faults : (errorsOf (scanLines 1 lines)).map Fault.cause =
      (errorsOf (scanLines 1 moved)).map Fault.cause)
    (productions : productionsOf (rulesOf (scanLines 1 lines)) =
      productionsOf (rulesOf (scanLines 1 moved))) :
    causesOf (ofLines mode lines) = causesOf (ofLines mode moved) := by
  have alike : errorsOf (scanLines 1 lines) = [] ↔ errorsOf (scanLines 1 moved) = [] := by
    rw [← List.map_eq_nil_iff (f := Fault.cause), faults, List.map_eq_nil_iff]
  rw [ofLines, readRules, gather_eq, ofLines, readRules, gather_eq]
  by_cases clean : errorsOf (scanLines 1 lines) = []
  · rw [if_pos clean, if_pos (alike.mp clean)]
    exact assemble_spread filled_of_scanLines filled_of_scanLines productions
  · rw [if_neg clean, if_neg (mt alike.mpr clean)]
    exact congrArg Except.error faults

theorem scanLines_shifted (shift number : Nat) (lines : List (Option (List Char))) :
    scanLines (number + shift) lines =
      (scanLines number lines).map (movedOutcome (· + shift)) := by
  induction lines generalizing number with
  | nil => rfl
  | cons line lines ih =>
    have next : number + shift + 1 = number + 1 + shift := by omega
    cases line with
    | none => rfl
    | some text =>
      rw [scanLines, scanLines, next, ih]
      split
      · rw [scanLine_moved (· + shift)]
        rfl
      · rfl

theorem errorsOf_moved (move : Nat → Nat) (outcomes : List (Except Fault Rule)) :
    (errorsOf (outcomes.map (movedOutcome move))).map Fault.cause =
      (errorsOf outcomes).map Fault.cause := by
  simp only [errorsOf, List.filterMap_map, List.map_filterMap]
  apply List.filterMap_congr
  intro outcome _
  cases outcome <;> rfl

theorem productionsOf_moved (move : Nat → Nat) (outcomes : List (Except Fault Rule)) :
    productionsOf (rulesOf (outcomes.map (movedOutcome move))) =
      productionsOf (rulesOf outcomes) := by
  have moved : rulesOf (outcomes.map (movedOutcome move)) =
      (rulesOf outcomes).map (Rule.moved move) := by
    simp only [rulesOf, List.filterMap_map, List.map_filterMap]
    apply List.filterMap_congr
    intro outcome _
    cases outcome <;> rfl
  rw [moved]
  simp only [productionsOf, List.flatMap_map]
  rfl

theorem lineOutcome_spelled (number : Nat) {line : List Char} {N : Char}
    {texts : List (List Char)} (spelled : Spelled line N texts) (notComment : N ≠ ';') :
    lineOutcome number line = [.ok ⟨number, N, texts⟩] := by
  obtain ⟨rest, scanned, _⟩ := spelled.tokens
  have holds : Rule.isWritten line = true := by
    rw [Rule.isWritten_of_scan scanned]
    simpa using notComment
  have read : Rule.ofText number line = .ok ⟨number, N, texts⟩ :=
    Rule.ofText_eq_ok_iff.mpr ⟨rfl, spelled⟩
  rw [lineOutcome, if_pos holds, scanLine_eq_ok_iff.mpr read]

/-- A rule on one line comes to the same as its alternatives on two lines. -/
theorem ofLines_parted {above whole first second later : List Char} {N : Char}
    {xs ys : List (List Char)} (closed : Closed '\n' above) (notComment : N ≠ ';')
    (oneLine : '\n' ∉ whole ∧ '\n' ∉ first ∧ '\n' ∉ second)
    (all : Spelled whole N (xs ++ ys)) (spelled : Spelled first N xs) (more : Spelled second N ys) :
    causesOf (ofLines mode (Lines.ofText (above ++ (whole ++ '\n' :: later)))) =
      causesOf (ofLines mode
        (Lines.ofText (above ++ (first ++ '\n' :: (second ++ '\n' :: later))))) := by
  obtain ⟨wholeLine, firstLine, secondLine⟩ := oneLine
  generalize hn : 1 + (Lines.ofText above).length = number
  have joined : scanLines 1 (Lines.ofText (above ++ (whole ++ '\n' :: later))) =
      scanLines 1 (Lines.ofText above) ++ (.ok ⟨number, N, xs ++ ys⟩ ::
        scanLines (number + 1) (Lines.ofText later)) := by
    rw [scanLines_above 1 closed, hn, scanLines_next _ wholeLine,
      lineOutcome_spelled _ all notComment]
    rfl
  have parted : scanLines 1
        (Lines.ofText (above ++ (first ++ '\n' :: (second ++ '\n' :: later)))) =
      scanLines 1 (Lines.ofText above) ++ (.ok ⟨number, N, xs⟩ :: .ok ⟨number + 1, N, ys⟩ ::
        (scanLines (number + 1) (Lines.ofText later)).map (movedOutcome (· + 1))) := by
    rw [scanLines_above 1 closed, hn, scanLines_next _ firstLine, scanLines_next _ secondLine,
      lineOutcome_spelled _ spelled notComment, lineOutcome_spelled _ more notComment,
      scanLines_shifted 1 (number + 1)]
    rfl
  apply ofLines_spread
  · rw [joined, parted, errorsOf_append, errorsOf_append, List.map_append, List.map_append]
    exact congrArg _ (errorsOf_moved _ _).symm
  · rw [joined, parted, rulesOf_append, rulesOf_append, productionsOf_append, productionsOf_append]
    congr 1
    change productionsOf (⟨number, N, xs ++ ys⟩ :: rulesOf _) =
      productionsOf (⟨number, N, xs⟩ :: ⟨number + 1, N, ys⟩ :: rulesOf _)
    simp only [productionsOf_cons, productionsOf_moved, List.map_append, List.append_assoc]

theorem causes_inFile (file : Path) (result : Except (List Fault) Grammar) :
    (inFile file result).mapError (List.map (·.cause)) = causesOf result := by
  cases result with
  | ok g => rfl
  | error faults =>
    simp only [inFile, causesOf, mapError_error, List.map_map]
    rfl

/-- **How alternatives are spread over lines does not matter.** Texts whose rules have the same
productions in the same order are loaded to the same grammar, or with the same causes in the same
order. So is a text in which the alternatives of a rule stand on two lines, whatever its other lines
hold. -/
theorem ofText_spread (file : Path) (mode : LoadMode) :
    (∀ text other rules others, Spells text rules → Spells other others →
      productionsOf rules = productionsOf others →
      (ofText file mode text).mapError (List.map (·.cause)) =
        (ofText file mode other).mapError (List.map (·.cause))) ∧
    (∀ above whole first second later N xs ys, Closed '\n' above → N ≠ ';' →
      '\n' ∉ whole ∧ '\n' ∉ first ∧ '\n' ∉ second →
      Spelled whole N (xs ++ ys) → Spelled first N xs → Spelled second N ys →
      (ofText file mode (above ++ (whole ++ '\n' :: later))).mapError (List.map (·.cause)) =
        (ofText file mode (above ++ (first ++ '\n' :: (second ++ '\n' :: later)))).mapError
          (List.map (·.cause))) := by
  constructor
  · intro text other rules others spells spells' same
    rw [ofText, ofText, causes_inFile, causes_inFile, ofLines_of_spells spells,
      ofLines_of_spells spells']
    exact assemble_spread (fun rule hr => (spells.filled rule hr).1)
      (fun rule hr => (spells'.filled rule hr).1) same
  · intro above whole first second later N xs ys closed notComment oneLine all spelled more
    rw [ofText, ofText, causes_inFile, causes_inFile]
    exact ofLines_parted closed notComment oneLine all spelled more

/-- Two alternatives on one line and on two lines, below a line that spells no rule. -/
theorem ofText_spread_lines :
    (ofText ⟨"g"⟩ {} "S ::= A | a\nA ::= a".toList).mapError (List.map (·.cause)) =
      (ofText ⟨"g"⟩ {} "S ::= A\nS ::= a\nA ::= a".toList).mapError (List.map (·.cause)) ∧
    (ofText ⟨"g"⟩ {} "S\nN ::= x | y\n".toList).mapError (List.map (·.cause)) =
      (ofText ⟨"g"⟩ {} "S\nN ::= x\nN ::= y\n".toList).mapError (List.map (·.cause)) := by
  obtain ⟨wellFormed, parted⟩ := ofText_spread ⟨"g"⟩ {}
  constructor
  · exact wellFormed _ _ [⟨1, 'S', [['A'], ['a']]⟩, ⟨2, 'A', [['a']]⟩]
      [⟨1, 'S', [['A']]⟩, ⟨2, 'S', [['a']]⟩, ⟨3, 'A', [['a']]⟩]
      (readRules_eq_ok_iff.mp rfl) (readRules_eq_ok_iff.mp rfl) rfl
  · exact parted "S\n".toList "N ::= x | y".toList "N ::= x".toList "N ::= y".toList [] 'N' [['x']]
      [['y']] (Or.inr rfl) (by decide) ⟨by decide, by decide, by decide⟩
      ⟨⟨_, rfl, by simp, by decide, rfl⟩, by decide⟩ ⟨⟨_, rfl, by simp, by decide, rfl⟩, by decide⟩
      ⟨⟨_, rfl, by simp, by decide, rfl⟩, by decide⟩

end NormalForm.Load
