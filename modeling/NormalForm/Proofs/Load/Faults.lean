import NormalForm.Proofs.Load.Violations

/-! # What a text that does not load reports

The first stage that finds anything wrong reports all that it finds, and nothing else is reported.
For the last stage this needs that a refused alternative leaves no trace: whether an alternative is
refused depends on the text before it, not on what was accepted. -/

namespace NormalForm.Load

open Unicode
open Grammar (Run Step)

variable {mode : LoadMode} {rules : List Rule} {g : Grammar} {earlier : List Alternative}

/-- The grammar differs from the one without productions in its productions only, and its bodies are
those that the flawless ones of some alternatives spell. -/
structure Absorbed (mode : LoadMode) (rules : List Rule) (earlier : List Alternative)
    (g : Grammar) : Prop where
  same : g = { started mode rules with productions := g.productions }
  keys : g.productions.map Prod.fst = g.nonterminals
  bodies : ∀ N body, body ∈ g.bodies N ↔ flaw? mode rules N body.text = none ∧
    ∃ other ∈ earlier, other.head = N ∧ other.text = body.text

theorem absorbed_started (mode : LoadMode) (rules : List Rule) :
    Absorbed mode rules [] (started mode rules) where
  same := rfl
  keys := by simp [started, registered, Function.comp_def]
  bodies N body := by simp [bodies_started]

theorem flaw_pair (mode : LoadMode) (rules : List Rule) (head B C : Char) :
    flaw? mode rules head [B, C] =
      ((started mode rules).misplaced? head B C).map .misplacedStart := by
  simp only [flaw?, Grammar.misplaced?, started, registered]
  cases chosenStart mode rules with
  | none => rfl
  | some S =>
    by_cases misplaced : mode.guardsStart ∧ head ≠ S ∧ (B = S ∨ C = S)
    · simp [Option.filter, misplaced]
    · have kept : (mode.guardsStart && head != S && (B == S || C == S)) = false := by
        simpa [and_assoc] using misplaced
      simp only [Option.bind_some, misplaced, if_false, Option.filter, kept, Bool.false_eq_true,
        Option.map_none]

/-- The grammar reads an alternative of a rule unless it is flawed. -/
theorem readBody_started (mode : LoadMode) (defined : Defined rules) {rule : Rule}
    (hr : rule ∈ rules) {text : List Char} (ht : text ∈ rule.alternatives) (filled : text ≠ []) :
    (∃ e, flaw? mode rules rule.head text = some e ∧
      (started mode rules).readBody rule.head text = .error e) ∨
    (flaw? mode rules rule.head text = none ∧ ∃ body : Body, spelled? text = some body ∧
      body.text = text ∧ (started mode rules).readBody rule.head text = .ok body) := by
  have known (A : Char) : A ∈ (started mode rules).nonterminals ↔ A ∈ headsOf rules :=
    List.mem_eraseDups
  rcases text with _ | ⟨B, _ | ⟨C, _ | ⟨D, rest⟩⟩⟩
  · exact absurd rfl filled
  · have registered : B ∈ (started mode rules).terminals ↔ isLowercase B = true :=
      mem_newLetters.trans (and_iff_right ⟨rule, hr, ht⟩)
    cases lower : isLowercase B with
    | true => right; simp [flaw?, spelled?, Grammar.readBody, registered, lower, Body.text]
    | false => left; simp [flaw?, Grammar.readBody, registered, lower]
  · obtain ⟨hB, hC⟩ := defined rule hr B C ht
    cases misplaced : (started mode rules).misplaced? rule.head B C with
    | some S => left; simp [flaw_pair, Grammar.readBody, known, hB, hC, misplaced]
    | none =>
      right
      simp [flaw_pair, spelled?, Grammar.readBody, known, hB, hC, misplaced, Body.text]
  · left
    simp [flaw?, Grammar.readBody]

/-- An alternative that is flawed or that repeats another adds nothing. -/
theorem Absorbed.refuse (h : Absorbed mode rules earlier g) {alternative : Alternative}
    (idle : flaw? mode rules alternative.head alternative.text = none →
      ∃ other ∈ earlier, other.head = alternative.head ∧ other.text = alternative.text) :
    Absorbed mode rules (earlier ++ [alternative]) g where
  same := h.same
  keys := h.keys
  bodies N body := by
    rw [h.bodies]
    constructor
    · rintro ⟨clean, other, ho, spells⟩
      exact ⟨clean, other, List.mem_append_left _ ho, spells⟩
    · rintro ⟨clean, other, ho, rfl, spells⟩
      refine ⟨clean, ?_⟩
      rcases List.mem_append.mp ho with ho | ho
      · exact ⟨other, ho, rfl, spells⟩
      · obtain rfl := List.mem_singleton.mp ho
        rw [← spells] at clean ⊢
        exact idle clean

theorem Absorbed.accept (h : Absorbed mode rules earlier g) {alternative : Alternative}
    {body : Body} (spells : body.text = alternative.text)
    (known : alternative.head ∈ g.nonterminals)
    (clean : flaw? mode rules alternative.head alternative.text = none) :
    Absorbed mode rules (earlier ++ [alternative]) (g.append alternative.head body) where
  same := by
    conv => lhs; rw [h.same]
    rfl
  keys := (Grammar.append_keys g alternative.head body).trans h.keys
  bodies N other := by
    have added : (∃ last ∈ earlier ++ [alternative], last.head = N ∧ last.text = other.text) ↔
        (∃ last ∈ earlier, last.head = N ∧ last.text = other.text) ∨
          N = alternative.head ∧ other = body := by
      have last : alternative.text = other.text ↔ other = body := by
        rw [← spells]
        exact ⟨fun same => (Grammar.text_injective same).symm, fun same => same ▸ rfl⟩
      simp [or_and_right, exists_or, last, eq_comm (a := alternative.head)]
    rw [added]
    by_cases hN : N = alternative.head
    · subst hN
      rw [Grammar.bodies_append_self g body (h.keys ▸ known), List.mem_append, h.bodies,
        List.mem_singleton, and_or_left]
      constructor
      · rintro (old | rfl)
        · exact Or.inl old
        · exact Or.inr ⟨spells ▸ clean, rfl, rfl⟩
      · rintro (old | ⟨_, _, new⟩)
        · exact Or.inl old
        · exact Or.inr new
    · rw [Grammar.bodies_append_of_ne g body hN, h.bodies]
      simp [hN]

/-- An alternative is refused exactly if it offends, and for its offence. -/
theorem Absorbed.step (h : Absorbed mode rules earlier g) (defined : Defined rules) {rule : Rule}
    (hr : rule ∈ rules) {alternative : Alternative} (hh : rule.head = alternative.head)
    (ht : alternative.text ∈ rule.alternatives) (filled : alternative.text ≠ []) :
    (∃ e, offence? mode rules earlier alternative = some e ∧
      g.apply (.production alternative.head alternative.text) = .error e ∧
      Absorbed mode rules (earlier ++ [alternative]) g) ∨
    (offence? mode rules earlier alternative = none ∧
      ∃ g', g.apply (.production alternative.head alternative.text) = .ok g' ∧
      Absorbed mode rules (earlier ++ [alternative]) g') := by
  have known : alternative.head ∈ g.nonterminals := by
    rw [h.same, ← hh]
    exact List.mem_eraseDups.mpr (List.mem_map_of_mem hr)
  have reads : g.readBody alternative.head alternative.text =
      (started mode rules).readBody alternative.head alternative.text := by
    rw [h.same]
    rfl
  rcases hh ▸ readBody_started mode defined hr ht filled with
    ⟨e, flaw, refused⟩ | ⟨clean, body, spelled, text, accepted⟩
  · left
    refine ⟨e, by simp [offence?, flaw], ?_, h.refuse (by simp [flaw])⟩
    simp [Grammar.apply, Grammar.withProduction, known, reads, refused]
  · have old : body ∈ g.bodies alternative.head ↔
        ∃ other ∈ earlier, other.head = alternative.head ∧ other.text = alternative.text := by
      rw [h.bodies, text]
      exact and_iff_right clean
    by_cases repeated : body ∈ g.bodies alternative.head
    · left
      refine ⟨.repeatedProduction alternative.head body, ?_, ?_, h.refuse fun _ => old.mp repeated⟩
      · simp only [offence?, clean, Option.none_or, if_pos (old.mp repeated), spelled,
          Option.map_some]
      · simp [Grammar.apply, Grammar.withProduction, known, reads, accepted, repeated]
    · right
      refine ⟨?_, g.append alternative.head body, ?_, h.accept text known clean⟩
      · simp only [offence?, clean, Option.none_or, if_neg (mt old.mpr repeated)]
      · simp [Grammar.apply, Grammar.withProduction, known, reads, accepted, repeated]

theorem mem_alternatives {alternative : Alternative} (h : alternative ∈ alternatives rules) :
    ∃ rule ∈ rules, rule.head = alternative.head ∧ alternative.text ∈ rule.alternatives := by
  obtain ⟨rule, hr, h⟩ := List.mem_flatMap.mp h
  obtain ⟨text, ht, rfl⟩ := List.mem_map.mp h
  exact ⟨rule, hr, rfl, ht⟩

theorem productionRequests_eq (rules : List Rule) :
    productionRequests rules = (alternatives rules).map fun alternative =>
      ⟨some alternative.line, .production alternative.head alternative.text⟩ := by
  simp only [productionRequests, alternatives, List.map_flatMap, List.map_map, Function.comp_def]

/-- What adding the rest of the alternatives reports, where `earlier` are those before them. -/
theorem Absorbed.carryOut (h : Absorbed mode rules earlier g) (defined : Defined rules)
    {rest : List Alternative} (belong : ∀ alternative ∈ rest, alternative ∈ alternatives rules)
    (filled : ∀ rule ∈ rules, [] ∉ rule.alternatives) :
    (carryOut g (rest.map fun alternative =>
      ⟨some alternative.line, .production alternative.head alternative.text⟩)).2 =
    (rest.zipIdx earlier.length).filterMap fun (alternative, i) =>
      (offence? mode rules ((earlier ++ rest).take i) alternative).map fun e =>
        ⟨some alternative.line, .refused e⟩ := by
  induction rest generalizing earlier g with
  | nil => rfl
  | cons alternative rest ih =>
    obtain ⟨belongs, belong⟩ := List.forall_mem_cons.mp belong
    obtain ⟨rule, hr, hh, ht⟩ := mem_alternatives belongs
    have nonempty : alternative.text ≠ [] := fun empty => filled rule hr (empty ▸ ht)
    have before : (earlier ++ alternative :: rest).take earlier.length = earlier :=
      List.take_left' rfl
    have after : earlier ++ alternative :: rest = earlier ++ [alternative] ++ rest := by simp
    have longer : earlier.length + 1 = (earlier ++ [alternative]).length := by simp
    rw [List.zipIdx_cons, List.filterMap_cons]
    dsimp only
    rw [before, longer, after]
    rcases h.step defined hr hh ht nonempty with
      ⟨e, offends, refused, next⟩ | ⟨clean, g', accepted, next⟩
    · simp only [List.map_cons, Load.carryOut, refused, offends, Option.map_some, ih next belong]
    · simp only [List.map_cons, Load.carryOut, accepted, clean, Option.map_none, ih next belong]

theorem grant_productions_error (defined : Defined rules)
    (filled : ∀ rule ∈ rules, [] ∉ rule.alternatives) {faults : List Fault} :
    grant (started mode rules) (productionRequests rules) = .error faults ↔
      faults ≠ [] ∧ productionFaults mode rules = faults := by
  have all := (absorbed_started mode rules).carryOut defined (fun _ h => h) filled
  rw [grant_eq_error_iff, productionRequests_eq, all]
  rfl

/-! ## The first stage with faults -/

/-- What a text that does not load reports. Each case holds the faults of one stage, and the stages
before it find none. -/
inductive Reports (mode : LoadMode) (text : List Char) : List Fault → Prop
  | malformed : Reports mode text (syntaxFaults text)
  | undefinedSymbols {rules : List Rule} : Spells text rules →
      Reports mode text (undefinedFaults rules)
  | wrongCase {rules : List Rule} : Spells text rules → undefinedFaults rules = [] →
      Reports mode text (caseFaults rules)
  | unknownStart {rules : List Rule} : Spells text rules → undefinedFaults rules = [] →
      caseFaults rules = [] → Reports mode text (startFaults mode rules)
  | productions {rules : List Rule} : Spells text rules → undefinedFaults rules = [] →
      caseFaults rules = [] → startFaults mode rules = [] →
      Reports mode text (productionFaults mode rules)

/-- A stage that reports what is found, and comes to one value if nothing is, before others. -/
theorem bind_eq_error_iff {α β : Type} {stage : Except (List Fault) α} {found : List Fault}
    {target : α} (fails : ∀ {faults}, stage = .error faults ↔ faults ≠ [] ∧ found = faults)
    (reaches : ∀ {a}, stage = .ok a → a = target) {next : α → Except (List Fault) β}
    {faults : List Fault} : (stage >>= next) = .error faults ↔
      (faults ≠ [] ∧ found = faults) ∨ (found = [] ∧ next target = .error faults) := by
  cases stage with
  | error es =>
    obtain ⟨faulty, rfl⟩ := fails.mp rfl
    rw [← fails]
    simp [bind, Except.bind, faulty]
  | ok a =>
    have clean : found = [] := by
      by_contra faulty
      cases fails.mpr ⟨faulty, rfl⟩
    rw [← fails, ← reaches rfl]
    simp [bind, Except.bind, clean]

theorem assemble_eq_error_iff (filled : ∀ rule ∈ rules, [] ∉ rule.alternatives)
    {faults : List Fault} : assemble mode rules = .error faults ↔ faults ≠ [] ∧
      (undefinedFaults rules = faults ∨ undefinedFaults rules = [] ∧ (caseFaults rules = faults ∨
        caseFaults rules = [] ∧ (startFaults mode rules = faults ∨
          startFaults mode rules = [] ∧ productionFaults mode rules = faults))) := by
  have afterSymbols {m : Grammar}
      (h : grant (.empty mode.guardsStart) (symbolRequests rules) = .ok m) :
      m = registered mode rules := (run_symbols.mp (grant_eq_ok_iff.mp h)).2
  have afterStart {m : Grammar}
      (h : grant (registered mode rules) (startRequests mode rules) = .ok m) :
      m = started mode rules := (run_startRequests.mp (grant_eq_ok_iff.mp h)).2
  unfold assemble
  rw [undefinedSymbols_eq]
  cases undefined : undefinedFaults rules with
  | cons fault rest =>
    simp only [Except.error.injEq, reduceCtorEq, false_and, or_false]
    exact eq_iff_of_ne_nil (List.cons_ne_nil _ _)
  | nil =>
    have defined : Defined rules :=
      undefinedSymbols_eq_nil_iff.mp ((undefinedSymbols_eq rules).trans undefined)
    simp only [bind_eq_error_iff grant_symbols_error afterSymbols,
      bind_eq_error_iff grant_start_error afterStart, grant_productions_error defined filled,
      true_and]
    constructor
    · rintro (⟨faulty, found⟩ | ⟨clean, ⟨faulty, found⟩ | ⟨known, faulty, found⟩⟩)
      · exact ⟨faulty, Or.inr (Or.inl found)⟩
      · exact ⟨faulty, Or.inr (Or.inr ⟨clean, Or.inl found⟩)⟩
      · exact ⟨faulty, Or.inr (Or.inr ⟨clean, Or.inr ⟨known, found⟩⟩)⟩
    · rintro ⟨faulty, nothing | found | ⟨clean, found | ⟨known, found⟩⟩⟩
      · exact absurd nothing.symm faulty
      · exact Or.inl ⟨faulty, found⟩
      · exact Or.inr ⟨clean, Or.inl ⟨faulty, found⟩⟩
      · exact Or.inr ⟨clean, Or.inr ⟨known, faulty, found⟩⟩

theorem inFile_eq_error_iff {file : Path} {result : Except (List Fault) Grammar}
    {faults : List FileFault} : inFile file result = .error faults ↔
      ∃ found, result = .error found ∧ faults = found.map (⟨·, file⟩) := by
  rw [inFile, mapError_eq_error_iff]
  simp only [eq_comm]

theorem ofLines_of_spells {text : List Char} (spells : Spells text rules) :
    ofLines mode (Lines.ofText text) = assemble mode rules := by
  rw [ofLines, readRules_eq_ok_iff.mpr spells]
  rfl

theorem Reports.fails {text : List Char} {found : List Fault} (h : Reports mode text found)
    (faulty : found ≠ []) : ofLines mode (Lines.ofText text) = .error found := by
  have filled {rules : List Rule} (spells : Spells text rules) :
      ∀ rule ∈ rules, [] ∉ rule.alternatives := fun rule hr => (spells.filled rule hr).2
  cases h with
  | malformed =>
    rw [ofLines, readRules_eq_error_iff.mpr ⟨faulty, rfl⟩]
    rfl
  | undefinedSymbols spells =>
    rw [ofLines_of_spells spells, assemble_eq_error_iff (filled spells)]
    exact ⟨faulty, Or.inl rfl⟩
  | wrongCase spells defined =>
    rw [ofLines_of_spells spells, assemble_eq_error_iff (filled spells)]
    exact ⟨faulty, Or.inr ⟨defined, Or.inl rfl⟩⟩
  | unknownStart spells defined upper =>
    rw [ofLines_of_spells spells, assemble_eq_error_iff (filled spells)]
    exact ⟨faulty, Or.inr ⟨defined, Or.inr ⟨upper, Or.inl rfl⟩⟩⟩
  | productions spells defined upper start =>
    rw [ofLines_of_spells spells, assemble_eq_error_iff (filled spells)]
    exact ⟨faulty, Or.inr ⟨defined, Or.inr ⟨upper, Or.inr ⟨start, rfl⟩⟩⟩⟩

theorem reports_of_ofLines {text : List Char} {found : List Fault}
    (h : ofLines mode (Lines.ofText text) = .error found) :
    found ≠ [] ∧ Reports mode text found := by
  cases read : readRules (Lines.ofText text) with
  | error es =>
    rw [ofLines, read] at h
    cases h
    obtain ⟨faulty, rfl⟩ := readRules_eq_error_iff.mp read
    exact ⟨faulty, .malformed⟩
  | ok rules =>
    have spells := readRules_eq_ok_iff.mp read
    rw [ofLines_of_spells spells,
      assemble_eq_error_iff fun rule hr => (spells.filled rule hr).2] at h
    obtain ⟨faulty, rfl | ⟨defined, rfl | ⟨upper, rfl | ⟨start, rfl⟩⟩⟩⟩ := h
    · exact ⟨faulty, .undefinedSymbols spells⟩
    · exact ⟨faulty, .wrongCase spells defined⟩
    · exact ⟨faulty, .unknownStart spells defined upper⟩
    · exact ⟨faulty, .productions spells defined upper start⟩

/-- **A failed load reports exactly what is wrong at the first stage where anything is.** The list
is never empty, and it holds one fault for each violation of that stage, in order, at its line. -/
theorem ofText_reports_first_stage (file : Path) (mode : LoadMode) (text : List Char)
    (faults : List FileFault) : ofText file mode text = .error faults ↔
      ∃ found, found ≠ [] ∧ Reports mode text found ∧ faults = found.map (⟨·, file⟩) := by
  rw [ofText, inFile_eq_error_iff]
  constructor
  · rintro ⟨found, failed, rfl⟩
    obtain ⟨faulty, reports⟩ := reports_of_ofLines failed
    exact ⟨found, faulty, reports, rfl⟩
  · rintro ⟨found, faulty, reports, rfl⟩
    exact ⟨found, reports.fails faulty, rfl⟩

/-- A pair that misplaces the start symbol twice is reported twice, and not as a repetition; an
alternative that repeats another is reported under the line of its own rule. -/
example : ofText ⟨"g"⟩ {} "S ::= AA\nA ::= SA | SA | a\nA ::= a".toList =
    .error ([⟨some 2, .refused (.misplacedStart 'S')⟩, ⟨some 2, .refused (.misplacedStart 'S')⟩,
      ⟨some 3, .refused (.repeatedProduction 'A' (.terminal 'a'))⟩].map (⟨·, ⟨"g"⟩⟩)) := by
  decide +kernel

end NormalForm.Load
