import NormalForm.Load.Rules
import NormalForm.Proofs.Rule.Loose
import NormalForm.Rule.Checked

/-! # Which lines spell a rule

A line spells a rule exactly if its tokens are a symbol, `::=`, and symbols in groups with bars
between neighbours, none of them empty. The first thing that is wrong with any other line is what is
reported. The checks of the reader never fail: a line that holds a rule has a token, and what stands
between two bars holds no bar. -/

namespace NormalForm

open Unicode

/-! ## Groups between bars -/

namespace Token

/-- The tokens of an alternative. -/
def ofLetters (text : List Char) : List Token := text.map symbol

/-- Tokens are groups without bars, with a bar between neighbours. -/
structure Splits (tokens : List Token) (groups : List (List Token)) : Prop where
  some : groups ≠ []
  apart : ∀ group ∈ groups, bar ∉ group
  joined : [bar].intercalate groups = tokens

theorem bar_not_mem_of_splitOn {tokens group : List Token} (h : group ∈ tokens.splitOn bar) :
    bar ∉ group := by
  induction tokens generalizing group with
  | nil =>
    rw [List.splitOn_nil, List.mem_singleton] at h
    simp [h]
  | cons token tokens ih =>
    rw [List.splitOn_cons_eq_if_modifyHead] at h
    obtain ⟨first, more, split⟩ := List.exists_cons_of_ne_nil (List.splitOn_ne_nil bar tokens)
    rw [split] at h ih
    by_cases same : token = bar
    · rw [if_pos (beq_iff_eq.mpr same)] at h
      rcases List.mem_cons.mp h with rfl | h
      · simp
      · exact ih h
    · rw [if_neg (by simpa using same), List.modifyHead_cons] at h
      rcases List.mem_cons.mp h with rfl | h
      · simpa [Ne.symm same] using ih (List.mem_cons_self ..)
      · exact ih (List.mem_cons_of_mem _ h)

/-- Tokens split in one way, and it is found. -/
theorem splits_iff {tokens : List Token} {groups : List (List Token)} :
    Splits tokens groups ↔ tokens.splitOn bar = groups := by
  constructor
  · rintro ⟨nonempty, apart, rfl⟩
    exact List.splitOn_intercalate bar apart nonempty
  · rintro rfl
    exact ⟨List.splitOn_ne_nil _ _, fun _ => bar_not_mem_of_splitOn, List.intercalate_splitOn bar⟩

/-- A line without tokens is blank. -/
theorem blank_of_scan_nil {line : List Char} (h : scan line = .ok []) :
    ∀ c ∈ line, isBlank c = true := by
  obtain ⟨pieces, rfl⟩ := exists_pieces h
  have tokenless := List.filterMap_eq_nil_iff.mp (Except.ok.inj ((scan_pieces pieces).symm.trans h))
  intro c hc
  obtain ⟨p, hp, hc⟩ := List.mem_flatMap.mp hc
  cases p with
  | blank d white => rwa [List.mem_singleton.mp hc]
  | token t _ => cases tokenless _ hp

end Token

namespace Rule

open Token (ofLetters Splits)

theorem readLetter_eq_ok_iff {token : Token} {c : Char} :
    readLetter token = .ok c ↔ token = .symbol c := by
  cases token <;> simp [readLetter]

theorem map_readLetter_ofLetters (text : List Char) :
    (ofLetters text).map readLetter = text.map .ok := by
  rw [ofLetters, List.map_map]
  rfl

theorem readAlternative_eq_ok_iff {group : List Token} {text : List Char} :
    readAlternative group = .ok text ↔ group = ofLetters text ∧ text ≠ [] := by
  have letters : group.mapM readLetter = .ok text ↔ group = ofLetters text := by
    rw [mapM_eq_ok_iff]
    constructor
    · intro h
      induction group generalizing text with
      | nil => cases text <;> simp_all [ofLetters]
      | cons token group ih =>
        cases text with
        | nil => cases h
        | cons c text =>
          obtain ⟨first, rest⟩ := List.cons.inj h
          rw [readLetter_eq_ok_iff.mp first, ih rest]
          rfl
    · rintro rfl
      exact map_readLetter_ofLetters text
  cases group with
  | nil => cases text <;> simp [readAlternative, ofLetters]
  | cons token group =>
    change (token :: group).mapM readLetter = .ok text ↔ _
    rw [letters]
    cases text <;> simp [ofLetters]

theorem readAlternative_defines (text : List Char) (rest : List Token) :
    readAlternative (ofLetters text ++ .defines :: rest) = .error (.malformed .secondDefines) := by
  have nonempty : (ofLetters text ++ .defines :: rest).isEmpty = false := by simp
  rw [readAlternative, nonempty]
  exact mapM_eq_error_iff.mpr
    ⟨ofLetters text, rest, .defines, text, rfl, map_readLetter_ofLetters text, rfl⟩

/-- What is wrong with a group. -/
def Bad (group : List Token) (e : RuleError) : Prop :=
  (group = [] ∧ e = .emptyAlternative) ∨ (.defines ∈ group ∧ e = .secondDefines)

theorem readAlternative_eq_error_iff {group : List Token} (apart : .bar ∉ group)
    {e : ReadingError} :
    readAlternative group = .error e ↔ ∃ flaw, Bad group flaw ∧ e = .malformed flaw := by
  cases group with
  | nil => simp [readAlternative, Bad, eq_comm]
  | cons token group =>
    have refused {e : ReadingError} (h : (token :: group).mapM readLetter = .error e) :
        .defines ∈ token :: group ∧ e = .malformed .secondDefines := by
      obtain ⟨before, after, bad, _, split, _, fails⟩ := mapM_eq_error_iff.mp h
      rw [split] at apart ⊢
      cases bad with
      | defines => exact ⟨by simp, (Except.error.inj fails).symm⟩
      | bar => simp at apart
      | symbol c => cases fails
    change (token :: group).mapM readLetter = .error e ↔ _
    constructor
    · intro h
      obtain ⟨second, rfl⟩ := refused h
      exact ⟨_, Or.inr ⟨second, rfl⟩, rfl⟩
    · rintro ⟨_, ⟨empty, _⟩ | ⟨second, rfl⟩, rfl⟩
      · cases empty
      · cases h : (token :: group).mapM readLetter with
        | error e' => rw [(refused h).2]
        | ok text =>
          have read : readAlternative (token :: group) = .ok text := h
          rw [(readAlternative_eq_ok_iff.mp read).1] at second
          simp [ofLetters] at second

theorem modifyHead_nothing (groups : List (List Token)) :
    groups.modifyHead (ofLetters [] ++ ·) = groups := by
  cases groups <;> rfl

/-- The alternatives are read as if they were first split. -/
theorem readAlternatives_eq (current : List Char) (tokens : List Token) :
    (readAlternatives current tokens).mapError .malformed =
      ((tokens.splitOn .bar).modifyHead (ofLetters current.reverse ++ ·)).mapM readAlternative := by
  induction tokens generalizing current with
  | nil =>
    cases current with
    | nil => rfl
    | cons c current =>
      have read := readAlternative_eq_ok_iff.mpr
        ⟨rfl, List.reverse_ne_nil_iff.mpr (List.cons_ne_nil c current)⟩
      simp only [List.splitOn_nil, List.modifyHead_cons, List.append_nil, List.mapM_cons,
        List.mapM_nil, read]
      rfl
  | cons token tokens ih =>
    rw [List.splitOn_cons_eq_if_modifyHead]
    cases token with
    | bar =>
      have whole := ih []
      rw [List.reverse_nil, modifyHead_nothing] at whole
      cases current with
      | nil => rfl
      | cons c current =>
        have read := readAlternative_eq_ok_iff.mpr
          ⟨rfl, List.reverse_ne_nil_iff.mpr (List.cons_ne_nil c current)⟩
        rw [if_pos (beq_self_eq_true _), List.modifyHead_cons, List.append_nil, List.mapM_cons,
          read, ← whole]
        cases h : readAlternatives [] tokens <;> simp [readAlternatives, h] <;> rfl
    | symbol c =>
      rw [readAlternatives, ih, if_neg (by simp), List.modifyHead_modifyHead]
      simp [ofLetters, Function.comp_def]
    | defines =>
      obtain ⟨first, more, split⟩ := List.exists_cons_of_ne_nil (List.splitOn_ne_nil .bar tokens)
      rw [if_neg (by simp), split, List.modifyHead_cons, List.modifyHead_cons, List.mapM_cons,
        readAlternative_defines]
      rfl

theorem readBetweenBars_eq (tokens : List Token) :
    readBetweenBars tokens = (readAlternatives [] tokens).mapError .malformed := by
  rw [readAlternatives_eq, List.reverse_nil, modifyHead_nothing]
  rfl

theorem map_readAlternative_iff {groups : List (List Token)} {texts : List (List Char)} :
    groups.map readAlternative = texts.map .ok ↔ groups = texts.map ofLetters ∧ [] ∉ texts := by
  induction groups generalizing texts with
  | nil => cases texts <;> simp
  | cons group groups ih =>
    cases texts with
    | nil => simp
    | cons text texts =>
      simp only [List.map_cons, List.cons.injEq, readAlternative_eq_ok_iff, ih, List.mem_cons,
        not_or, ne_eq, eq_comm (a := [])]
      exact and_and_and_comm

theorem readAlternatives_eq_ok_iff {tokens : List Token} {texts : List (List Char)} :
    readAlternatives [] tokens = .ok texts ↔ Splits tokens (texts.map ofLetters) ∧ [] ∉ texts := by
  rw [← mapError_eq_ok_iff (f := ReadingError.malformed), ← readBetweenBars_eq, readBetweenBars,
    mapM_eq_ok_iff, map_readAlternative_iff, Token.splits_iff]

/-- The leftmost bad group is what is reported. -/
theorem readAlternatives_eq_error_iff {tokens : List Token} {e : RuleError} :
    readAlternatives [] tokens = .error e ↔ ∃ (good : List (List Char)) (bad : List Token)
      (later : List (List Token)),
      Splits tokens (good.map ofLetters ++ bad :: later) ∧ [] ∉ good ∧ Bad bad e := by
  have same : readAlternatives [] tokens = .error e ↔
      readBetweenBars tokens = .error (.malformed e) := by
    rw [readBetweenBars_eq, mapError_eq_error_iff]
    simp
  rw [same, readBetweenBars, mapM_eq_error_iff]
  constructor
  · rintro ⟨before, later, bad, good, split, fine, fails⟩
    obtain ⟨rfl, filled⟩ := map_readAlternative_iff.mp fine
    have splits := Token.splits_iff.mpr split
    obtain ⟨_, flawed, same⟩ := (readAlternative_eq_error_iff (splits.apart bad (by simp))).mp fails
    cases same
    exact ⟨good, bad, later, splits, filled, flawed⟩
  · rintro ⟨good, bad, later, splits, filled, flawed⟩
    have fails := (readAlternative_eq_error_iff (splits.apart bad (by simp))).mpr ⟨e, flawed, rfl⟩
    exact ⟨_, later, bad, good, Token.splits_iff.mp splits,
      map_readAlternative_iff.mpr ⟨rfl, filled⟩, fails⟩

/-! ## Reading lines -/

/-- The reader with checks reads tokens as the reader does. -/
theorem readTokens_eq (number : Nat) {tokens : List Token} (nonempty : tokens ≠ []) :
    readTokens number tokens = (ofTokens number tokens).mapError .malformed := by
  cases tokens with
  | nil => exact absurd rfl nonempty
  | cons first rest =>
    cases first with
    | defines => rfl
    | bar => rfl
    | symbol c =>
      cases rest with
      | nil => rfl
      | cons second rest =>
        cases second with
        | bar => rfl
        | symbol d => rfl
        | defines =>
          change (readBetweenBars rest >>= fun texts => pure (⟨number, c, texts⟩ : Rule)) = _
          rw [readBetweenBars_eq, ofTokens]
          cases readAlternatives [] rest <;> rfl

theorem scan_ne_nil {line : List Char} (written : isWritten line = true) :
    Token.scan line ≠ .ok [] := by
  intro blank
  rw [not_written_of_blank (Token.blank_of_scan_nil blank)] at written
  cases written

theorem readText_eq (number : Nat) {line : List Char} (written : isWritten line = true) :
    readText number line = (ofText number line).mapError .malformed := by
  have visible := scan_ne_nil written
  unfold readText ofText
  cases h : Token.scan line with
  | error e => rfl
  | ok tokens =>
    change readTokens number tokens = (ofTokens number tokens).mapError .malformed
    exact readTokens_eq number fun empty => visible (empty ▸ h)

/-- A line spells a head with alternatives, none of them empty. -/
structure Spelled (line : List Char) (head : Char) (alternatives : List (List Char)) : Prop where
  tokens : ∃ rest, Token.scan line = .ok (.symbol head :: .defines :: rest) ∧
    Splits rest (alternatives.map ofLetters)
  filled : [] ∉ alternatives

/-- Why a line spells no rule. -/
inductive Flaw (line : List Char) : RuleError → Prop
  | stray : (¬ ∃ tokens, Token.scan line = .ok tokens) → Flaw line .strayColon
  | head {first : Token} {rest : List Token} : Token.scan line = .ok (first :: rest) →
      (∀ c, first ≠ .symbol c) → Flaw line .noHead
  | defines {c : Char} {rest : List Token} : Token.scan line = .ok (.symbol c :: rest) →
      rest.head? ≠ some .defines → Flaw line .noDefines
  | group {c : Char} {rest : List Token} {good : List (List Char)} {bad : List Token}
      {later : List (List Token)} {e : RuleError} :
      Token.scan line = .ok (.symbol c :: .defines :: rest) →
      Splits rest (good.map ofLetters ++ bad :: later) → [] ∉ good → Bad bad e → Flaw line e

theorem ofText_eq_ok_iff {number : Nat} {line : List Char} {rule : Rule} :
    ofText number line = .ok rule ↔
      rule.line = number ∧ Spelled line rule.head rule.alternatives := by
  rw [ofText, bind_eq_ok_iff]
  constructor
  · rintro ⟨tokens, scanned, read⟩
    unfold ofTokens at read
    split at read
    · obtain ⟨texts, ht, rfl⟩ := map_eq_ok_iff.mp read
      obtain ⟨splits, filled⟩ := readAlternatives_eq_ok_iff.mp ht
      exact ⟨rfl, ⟨_, scanned, splits⟩, filled⟩
    · cases read
    · cases read
  · rintro ⟨rfl, ⟨rest, scanned, splits⟩, filled⟩
    refine ⟨_, scanned, ?_⟩
    rw [ofTokens, readAlternatives_eq_ok_iff.mpr ⟨splits, filled⟩]
    rfl

theorem Flaw.reported {number : Nat} {line : List Char} {e : RuleError} (flaw : Flaw line e) :
    ofText number line = .error e := by
  cases flaw with
  | stray unscanned =>
    cases h : Token.scan line with
    | ok tokens => exact absurd ⟨tokens, h⟩ unscanned
    | error e => rw [ofText, h, Token.scan_error h]; rfl
  | @head first rest scanned other =>
    rw [ofText, scanned]
    cases first with
    | defines => rfl
    | bar => rfl
    | symbol c => exact absurd rfl (other c)
  | @defines c rest scanned other =>
    rw [ofText, scanned]
    cases rest with
    | nil => rfl
    | cons second rest =>
      cases second with
      | defines => exact absurd rfl other
      | bar => rfl
      | symbol d => rfl
  | group scanned splits filled flawed =>
    have fails := readAlternatives_eq_error_iff.mpr ⟨_, _, _, splits, filled, flawed⟩
    rw [ofText, scanned]
    change (readAlternatives [] _).map _ = _
    rw [fails]
    rfl

theorem flaw_of_ofText {number : Nat} {line : List Char} (written : isWritten line = true)
    {e : RuleError} (h : ofText number line = .error e) : Flaw line e := by
  cases scanned : Token.scan line with
  | error e' =>
    rw [ofText, scanned, Token.scan_error scanned] at h
    cases h
    exact .stray (by simp [scanned])
  | ok tokens =>
    rw [ofText, scanned] at h
    change ofTokens number tokens = .error e at h
    unfold ofTokens at h
    split at h
    · obtain ⟨good, bad, later, splits, filled, flawed⟩ :=
        readAlternatives_eq_error_iff.mp (map_eq_error_iff.mp h)
      exact .group scanned splits filled flawed
    · rename_i c rest other
      cases h
      refine .defines scanned fun first => ?_
      obtain ⟨more, rfl⟩ := List.head?_eq_some_iff.mp first
      exact other more rfl
    · rename_i other noSymbol
      cases h
      cases tokens with
      | nil => exact absurd scanned (scan_ne_nil written)
      | cons first rest => exact .head scanned fun c same => noSymbol c rest (same ▸ rfl)

end Rule

/-- **Which lines spell a rule, and what is reported of the others.** A line that is to hold a rule
is read exactly if it spells one, as the rule that it spells. Otherwise its first flaw is reported
at its number. The reader with checks comes to the same, so its checks never fail. -/
theorem Load.scanLine_exact (number : Nat) (line : List Char)
    (written : Rule.isWritten line = true) :
    (∀ rule, scanLine number line = .ok rule ↔
      rule.line = number ∧ Rule.Spelled line rule.head rule.alternatives) ∧
    (∀ fault, scanLine number line = .error fault ↔
      ∃ e, Rule.Flaw line e ∧ fault = ⟨some number, .malformed e⟩) ∧
    (∀ rule, Rule.readText number line = .ok rule ↔ scanLine number line = .ok rule) ∧
    (∀ e, Rule.readText number line = .error e ↔ ∃ flaw, Rule.Flaw line flaw ∧
      e = .malformed flaw) := by
  have fails (e : RuleError) : Rule.ofText number line = .error e ↔ Rule.Flaw line e :=
    ⟨Rule.flaw_of_ofText written, Rule.Flaw.reported⟩
  refine ⟨fun rule => ?_, fun fault => ?_, fun rule => ?_, fun e => ?_⟩
  · rw [scanLine, mapError_eq_ok_iff, Rule.ofText_eq_ok_iff]
  · rw [scanLine, mapError_eq_error_iff]
    simp only [fails, eq_comm]
  · rw [scanLine, Rule.readText_eq number written, mapError_eq_ok_iff, mapError_eq_ok_iff]
  · rw [Rule.readText_eq number written, mapError_eq_error_iff]
    simp only [fails, eq_comm]

/-- An empty group before a second `::=`, and a line with blanks between the symbols of a pair. -/
theorem Load.scanLine_exact_crowded :
    scanLine 7 "S ::= a|| ::=".toList = .error ⟨some 7, .malformed .emptyAlternative⟩ ∧
      scanLine 3 "\tS::=A B|a".toList = .ok ⟨3, 'S', [['A', 'B'], ['a']]⟩ := by
  constructor
  · apply ((scanLine_exact 7 _ (by decide)).2.1 _).mpr
    have splits : Token.Splits [.symbol 'a', .bar, .bar, .defines]
        ([['a']].map Token.ofLetters ++ [] :: [[.defines]]) := ⟨by simp, by decide, rfl⟩
    refine ⟨_, .group rfl splits ?_ ?_, rfl⟩
    · decide
    · exact Or.inl ⟨rfl, rfl⟩
  · apply ((scanLine_exact 3 _ (by decide)).1 _).mpr
    exact ⟨rfl, ⟨_, rfl, by simp, by decide, rfl⟩, by decide⟩

end NormalForm
