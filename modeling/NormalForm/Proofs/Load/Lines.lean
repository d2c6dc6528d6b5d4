import NormalForm.Load.Basic
import NormalForm.Proofs.Outcome

namespace NormalForm

namespace Rule

theorem alternatives_of_readAlternatives {current : List Char} {tokens : List Token}
    {texts : List (List Char)} (h : readAlternatives current tokens = .ok texts) :
    texts ≠ [] ∧ [] ∉ texts := by
  induction tokens generalizing current texts with
  | nil =>
    rw [readAlternatives] at h
    split at h
    · cases h
    · rename_i nonempty
      cases h
      simpa using nonempty
  | cons token rest ih =>
    cases token with
    | bar =>
      rw [readAlternatives] at h
      split at h
      · cases h
      · rename_i nonempty
        obtain ⟨more, hr, rfl⟩ := map_eq_ok_iff.mp h
        simpa [(ih hr).2] using nonempty
    | symbol c => exact ih h
    | defines => cases h

/-- A rule has alternatives, and none of them is empty. -/
theorem alternatives_of_ofText {number : Nat} {text : List Char} {rule : Rule}
    (h : ofText number text = .ok rule) : rule.alternatives ≠ [] ∧ [] ∉ rule.alternatives := by
  obtain ⟨tokens, _, h⟩ := bind_eq_ok_iff.mp h
  unfold ofTokens at h
  split at h
  · obtain ⟨texts, hr, rfl⟩ := map_eq_ok_iff.mp h
    exact alternatives_of_readAlternatives hr
  · cases h
  · cases h

end Rule

namespace Load

/-- The lines of a text that hold rules, each with its number. -/
def writtenLines (text : List Char) : List (List Char × Nat) :=
  ((Lines.split '\n' '\r' text).zipIdx 1).filter fun line => Rule.isWritten line.1

/-- Each line that holds a rule spells the rule in its place. -/
def Spells (text : List Char) (rules : List Rule) : Prop :=
  (writtenLines text).map (fun line => Rule.ofText line.2 line.1) = rules.map .ok

theorem Spells.filled {text : List Char} {rules : List Rule} (spells : Spells text rules) :
    ∀ rule ∈ rules, rule.alternatives ≠ [] ∧ [] ∉ rule.alternatives := by
  intro rule hr
  have spelled : .ok rule ∈ (rules.map .ok : List (Except RuleError Rule)) :=
    List.mem_map_of_mem hr
  rw [← spells] at spelled
  obtain ⟨line, _, h⟩ := List.mem_map.mp spelled
  exact Rule.alternatives_of_ofText h

theorem gather_eq_ok_iff {ε α : Type} {results : List (Except ε α)} {found : List α} :
    gather results = .ok found ↔ results = found.map .ok := by
  induction results generalizing found with
  | nil => cases found <;> simp [gather]
  | cons result rest ih =>
    cases result with
    | ok a =>
      cases hg : gather rest with
      | ok more =>
        have hr := ih.mp hg
        subst hr
        cases found with
        | nil => simp [gather, hg, Except.map]
        | cons b found =>
          have inj : (more.map .ok : List (Except ε α)) = found.map .ok ↔ more = found :=
            List.map_inj_right fun _ _ => Except.ok.inj
          simp [gather, hg, Except.map, inj]
      | error es =>
        have fails (more : List α) : rest ≠ more.map .ok := fun hr => by simp [ih.mpr hr] at hg
        cases found <;> simp [gather, hg, Except.map, fails]
    | error e =>
      cases hg : gather rest <;> cases found <;> simp [gather, hg]

theorem scanLines_some (number : Nat) (lines : List (List Char)) :
    scanLines number (lines.map some) =
      ((lines.zipIdx number).filter fun line => Rule.isWritten line.1).map fun line =>
        scanLine line.2 line.1 := by
  induction lines generalizing number with
  | nil => rfl
  | cons line rest ih =>
    by_cases hw : Rule.isWritten line = true
    · simp [scanLines, hw, ih]
    · simp [scanLines, hw, ih]

theorem scanLine_eq_ok_iff {number : Nat} {text : List Char} {rule : Rule} :
    scanLine number text = .ok rule ↔ Rule.ofText number text = .ok rule :=
  mapError_eq_ok_iff

/-- Two readers that accept the same lines as the same rules accept the same lists. -/
theorem map_eq_map_ok_iff {α β ε ε' : Type} {f : α → Except ε β} {g : α → Except ε' β}
    (same : ∀ a b, f a = .ok b ↔ g a = .ok b) {as : List α} {bs : List β} :
    as.map f = bs.map .ok ↔ as.map g = bs.map .ok := by
  induction as generalizing bs with
  | nil => cases bs <;> simp
  | cons a as ih =>
    cases bs with
    | nil => simp
    | cons b bs => simp only [List.map_cons, List.cons.injEq, same, ih]

theorem readRules_eq_ok_iff {text : List Char} {rules : List Rule} :
    readRules (Lines.ofText text) = .ok rules ↔ Spells text rules := by
  rw [readRules, gather_eq_ok_iff, Lines.ofText, scanLines_some]
  exact map_eq_map_ok_iff fun _ _ => scanLine_eq_ok_iff

end Load

end NormalForm
