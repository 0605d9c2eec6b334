import CssLint.Proofs.Rule.AlikeFindings
import CssLint.Proofs.Selector.Commented
import CssLint.Proofs.Sheet.CommentRules

/-!
# Comments behind selectors

A comment behind the selector of a rule changes no verdict, as long as what is measured
reads the same with it: where its body holds nothing that the filters, the splitter and
the search for nesting selectors look for, and where no selector ends in something that
goes on into the comment.
-/

namespace CssLint

open Sheet Text
open Selector (Change InertBody callEnds endsInEscape entries holdsCloser resolve split)

/-! ## Selectors -/

instance decidableForallError {ε α : Type} (result : Except ε α) (property : ε → Prop)
    [DecidablePred property] : Decidable (∀ fault, result = .error fault → property fault) :=
  match result with
  | .ok _ => .isTrue fun _ same => nomatch same
  | .error fault => decidable_of_iff (property fault)
      ⟨fun holds _ same => Except.error.inj same ▸ holds, fun all => all fault rfl⟩

/-- Nothing in the measured selector goes on into a comment at its end: no escape, no call of a
mixin, and nothing that is not closed. -/
structure SparesComment (body selector : List Char) : Prop where
  escape : endsInEscape selector = false
  call : callEnds true selector = false
  fault : ∀ fault, Selector.Node.ofText selector = .error fault →
    fault.isComment = false ∧ holdsCloser body = false

instance (body selector : List Char) : Decidable (SparesComment body selector) :=
  decidable_of_iff (endsInEscape selector = false ∧ callEnds true selector = false ∧
      ∀ fault, Selector.Node.ofText selector = .error fault →
        fault.isComment = false ∧ holdsCloser body = false)
    ⟨fun ⟨escape, call, fault⟩ => ⟨escape, call, fault⟩,
      fun ⟨escape, call, fault⟩ => ⟨escape, call, fault⟩⟩

theorem judgedAlike_commenting {body selector : List Char}
    (closed : contains ['*', '/'] body = false) (spares : SparesComment body selector) :
    JudgedAlike (fun _ _ => True) selector ((Change.commenting body).apply selector) :=
  (JudgedAlike.apply (Selector.extends_commenting closed) ⟨Or.inr spares.escape, Or.inl rfl⟩
    fun fault failed => ⟨Selector.quiet_commenting closed (spares.fault fault failed).2,
      Or.inr (spares.fault fault failed).1⟩).imp fun _ _ _ => trivial

/-! ## Rules -/

/-- The rule may have a comment behind its selector: no comma or colon ends the selector, and what
the entries of the selector stand for spares the comment. -/
structure TakesComment (sheet : Stylesheet) (id : NodeId) (selector body : List Char) : Prop where
  entry : [] ∉ (split ',' selector).getLast?
  colon : selector.getLast? ≠ some ':'
  call : callEnds true selector = false
  resolved : ∀ entry ∈ entries selector, ∀ measured ∈ sheet.resolve id entry,
    SparesComment body measured

instance (sheet : Stylesheet) (id : NodeId) (selector body : List Char) :
    Decidable (TakesComment sheet id selector body) :=
  decidable_of_iff ([] ∉ (split ',' selector).getLast? ∧ selector.getLast? ≠ some ':' ∧
      callEnds true selector = false ∧ ∀ entry ∈ entries selector,
        ∀ measured ∈ sheet.resolve id entry, SparesComment body measured)
    ⟨fun ⟨entry, colon, call, resolved⟩ => ⟨entry, colon, call, resolved⟩,
      fun ⟨entry, colon, call, resolved⟩ => ⟨entry, colon, call, resolved⟩⟩

section Rules

variable {starts : Nat → Nat → Prop} {head : Kind → Kind → Prop} {occurrence changed : Occurrence}
  (alike : OccurrencesAlike starts head SameText occurrence changed)

include alike

theorem entriesAround_eq :
    changed.above.filterMap Kind.nestingEntries? =
      occurrence.above.filterMap Kind.nestingEntries? := by
  have above := alike.above
  generalize occurrence.above = kinds at above
  generalize changed.above = others at above
  induction above with
  | nil => rfl
  | cons first _ inductionHypothesis =>
      obtain ⟨sameBlock, sameText⟩ := first
      have own : ∀ {kind other : Kind}, SameBlock kind other → SameText kind other →
          other.nestingEntries? = kind.nestingEntries? := by
        rintro _ _ (_ | name) (selector | params)
        · rw [Kind.nestingEntries?, Kind.nestingEntries?, selector]
        · rw [Kind.nestingEntries?, Kind.nestingEntries?, params, name]
      rw [List.filterMap_cons, List.filterMap_cons, own sameBlock sameText, inductionHypothesis]

/-- Rules with one text measure the same selectors. -/
theorem selectors_eq (same : changed.style.selector = occurrence.style.selector) :
    changed.selectors = occurrence.selectors := by
  rw [Occurrence.selectors, Occurrence.selectors, same, alike.blocks, inKeyframes_alike alike.above,
    entriesAround_eq alike]

/-- Behind a comment the selectors that are measured are judged like those without. -/
theorem selectors_commented {body : List Char} (inert : InertBody body)
    (bareEnd : BareEnd occurrence.style.selector)
    (own : changed.style.selector = (Change.commenting body).apply occurrence.style.selector)
    {sheet : Stylesheet} {id : NodeId} (describes : Stylesheet.Describes sheet id occurrence)
    (takes : TakesComment sheet id occurrence.style.selector body) :
    Option.Rel (List.Forall₂ fun selector other => True ∧
      JudgedAlike (fun _ _ => True) selector other) occurrence.selectors changed.selectors := by
  obtain ⟨front, last, parts, changedParts⟩ := Selector.entries_apply
    (Selector.mem_commenting (by decide) inert.comma) bareEnd takes.entry
    (Selector.bareEnd_commenting body)
  rw [Change.expand_commenting, List.map_id] at changedParts
  generalize around : occurrence.above.filterMap Kind.nestingEntries? = outer
  have resolved : ∀ selector ∈ resolve outer last, SparesComment body selector := by
    intro selector member
    refine takes.resolved last (by simp [parts]) selector ?_
    rwa [Stylesheet.resolve, describes.above, around]
  have onLast : resolve outer ((Change.commenting body).apply last) =
      (resolve outer last).map (Change.commenting body).apply := by
    have applied := Selector.resolve_apply
      (Selector.mem_commenting (by decide) inert.nesting) outer last
    simpa only [Change.expand_commenting, List.map_id_fun, List.map_id', id_eq] using applied
  have standard : ∀ selector ∈ resolve outer last,
      (Selector.isStandard ∘ (Change.commenting body).apply) selector =
        Selector.isStandard selector := fun selector member =>
    Selector.isStandard_apply inert.inert (Or.inl rfl) (Or.inr (resolved selector member).call)
  have measured : List.Forall₂ (fun selector other => True ∧
      JudgedAlike (fun _ _ => True) selector other)
      (((entries occurrence.style.selector).flatMap (resolve outer)).filter Selector.isStandard)
      (((entries ((Change.commenting body).apply occurrence.style.selector)).flatMap
        (resolve outer)).filter Selector.isStandard) := by
    rw [parts, changedParts, List.flatMap_append, List.flatMap_append, List.filter_append,
      List.filter_append]
    refine List.rel_append (List.forall₂_same.2 fun selector _ =>
      ⟨trivial, .refl (fun _ => trivial) selector⟩) ?_
    rw [List.flatMap_singleton, List.flatMap_singleton, onLast, List.filter_map,
      List.filter_congr standard, List.forall₂_map_right_iff]
    exact List.forall₂_same.2 fun selector member => ⟨trivial,
      judgedAlike_commenting inert.closed (resolved selector (List.mem_filter.1 member).1)⟩
  rw [Occurrence.selectors, Occurrence.selectors, own, alike.blocks, inKeyframes_alike alike.above,
    entriesAround_eq alike, around, Selector.isStandardRule_commenting inert bareEnd takes.colon,
    Selector.isStandard_apply inert.inert (Or.inl rfl) (Or.inr takes.call)]
  split
  · exact .none
  · split
    · exact .none
    · split
      · exact .none
      · exact .some measured

end Rules

/-! ## Sheets -/

/-- A style rule whose block is empty. -/
def hollowRule (selector : List Char) : List Char :=
  selector ++ " \x7b\x7d".toList

theorem holdsRule_of_mem {css : List Char} {rule : StyleRule}
    (member : rule ∈ (Stylesheet.ofText css).rules.map Prod.snd) :
    HoldsRule rule (contents css).items := by
  obtain ⟨entry, inside, rfl⟩ := List.mem_map.1 member
  obtain ⟨occurrence, occurs, same, -⟩ := exists_mem_of_forall₂ (rules_described css) inside
  exact ⟨[], occurrence, occurs, same⟩

/-- A rule, or the rule with the comment, has the same findings but for their places and texts. -/
theorem findings_commented {starts : Nat → Nat → Prop} {occurrence changed : Occurrence}
    {rule : StyleRule} {body : List Char} (inert : InertBody body) (bareEnd : BareEnd rule.selector)
    (alike : OccurrencesAlike starts (SameTextOr rule (rule.selector ++ ' ' :: comment body))
      SameText occurrence changed)
    {sheet : Stylesheet} {id : NodeId} (describes : Stylesheet.Describes sheet id occurrence)
    (takes : occurrence.style = rule → TakesComment sheet id rule.selector body)
    (setting : RuleSetting) (limit : Binary64) :
    List.Forall₂ (fun finding other =>
        other.rule = finding.rule ∧ other.severity = finding.severity)
      (occurrence.findings setting limit) (changed.findings setting limit) := by
  have judged : Option.Rel (List.Forall₂ fun selector other => True ∧
      JudgedAlike (fun _ _ => True) selector other) occurrence.selectors changed.selectors := by
    rcases alike.style.cases_rule with same | ⟨rfl, text⟩
    · rw [selectors_eq alike same]
      cases occurrence.selectors with
      | none => exact .none
      | some selectors =>
          exact .some (List.forall₂_same.2 fun selector _ =>
            ⟨trivial, .refl (fun _ => trivial) selector⟩)
    · rw [← Change.apply_commenting] at text
      exact selectors_commented alike inert bareEnd text describes (takes rfl)
  exact findings_alike (fun _ _ _ => ⟨rfl, rfl⟩) (fun _ _ _ _ _ => ⟨rfl, rfl⟩) judged

/-- A comment behind the selector of a rule with an empty block changes no warning but its place and
its text. -/
theorem lint_commented {front selector body tail : List Char} (inert : InertBody body)
    (settled : endsInEscape (front ++ selector) = false)
    (rule : ⟨selector, byteCount front⟩ ∈
      (Stylesheet.ofText (front ++ hollowRule selector ++ tail)).rules.map Prod.snd)
    (takes : ∀ entry ∈ (Stylesheet.ofText (front ++ hollowRule selector ++ tail)).rules,
      entry.2 = ⟨selector, byteCount front⟩ →
      TakesComment (Stylesheet.ofText (front ++ hollowRule selector ++ tail)) entry.1 selector body)
    (config : Config) (source : Option String) :
    (lint config (front ++ hollowRule (selector ++ ' ' :: comment body) ++ tail)
        source).warnings.map (fun warning => (warning.rule, warning.severity)) =
      (lint config (front ++ hollowRule selector ++ tail) source).warnings.map
        (fun warning => (warning.rule, warning.severity)) := by
  have plain : front ++ hollowRule selector ++ tail =
      front ++ selector ++ ' ' :: '\x7b' :: '\x7d' :: tail := by
    simp [hollowRule]
  have commented : front ++ hollowRule (selector ++ ' ' :: comment body) ++ tail =
      front ++ selector ++ ' ' :: (comment body ++ ' ' :: '\x7b' :: '\x7d' :: tail) := by
    simp [hollowRule]
  have holds := holdsRule_of_mem rule
  rw [commented]
  rw [plain] at holds rule takes ⊢
  have some : selector ≠ [] := by
    obtain ⟨entry, member, own⟩ := List.mem_map.1 rule
    rintro rfl
    exact (takes entry member own).entry rfl
  have described := (rules_described
    (front ++ selector ++ ' ' :: '\x7b' :: '\x7d' :: tail)).flip
  have rules := (List.forall₂_and_left _ _).2 ⟨fun occurrence member =>
    exists_mem_of_forall₂ described member, occurrences_comment inert.closed holds settled some⟩
  have findings := findingsIn_alike (rules.imp fun occurrence changed both setting limit => by
    obtain ⟨⟨entry, member, own, describes⟩, alike⟩ := both
    exact findings_commented inert (holds.bare some).2 alike describes
      (fun same => takes entry member (own.symm.trans same)) setting limit) config
  rw [warnings_lint, warnings_lint, List.map_map, List.map_map]
  generalize config.findingsIn _ = found at findings ⊢
  generalize config.findingsIn _ = others at findings ⊢
  induction findings with
  | nil => rfl
  | cons first _ inductionHypothesis =>
      rw [List.map_cons, List.map_cons, inductionHypothesis]
      simp only [Function.comp_apply, Finding.warning, first.1, first.2]

/-- Quotes and brackets in a comment do no harm, in a rule inside another one. -/
theorem lint_commented_nested :
    let front := "a,b \x7b ".toList
    let selector := "c > d, & e".toList
    let body := " it's [one] of (two \x7b ".toList
    let tail := " f \x7b\x7d \x7d".toList
    let sheet := Stylesheet.ofText (front ++ hollowRule selector ++ tail)
    InertBody body ∧ endsInEscape (front ++ selector) = false ∧
      ⟨selector, byteCount front⟩ ∈ sheet.rules.map Prod.snd ∧
      (∀ entry ∈ sheet.rules, entry.2 = ⟨selector, byteCount front⟩ →
        TakesComment sheet entry.1 selector body) ∧
      ∀ (config : Config) (source : Option String),
        (lint config (front ++ hollowRule (selector ++ ' ' :: comment body) ++ tail)
            source).warnings.map (fun warning => (warning.rule, warning.severity)) =
          (lint config (front ++ hollowRule selector ++ tail) source).warnings.map
            (fun warning => (warning.rule, warning.severity)) := by
  intro front selector body tail sheet
  have inert : InertBody body := by decide +kernel
  have settled : endsInEscape (front ++ selector) = false := by decide +kernel
  have rule : ⟨selector, byteCount front⟩ ∈ sheet.rules.map Prod.snd := by decide +kernel
  have takes : ∀ entry ∈ sheet.rules, entry.2 = ⟨selector, byteCount front⟩ →
      TakesComment sheet entry.1 selector body := by decide +kernel
  exact ⟨inert, settled, rule, takes, lint_commented inert settled rule takes⟩

/-- The splitter does not know comments: a comma in one divides the selector. -/
theorem lint_commented_comma :
    let config := Config.empty.set Rule.maxCompoundsName ⟨.number (.integer 1), .error, none⟩
    contains ['*', '/'] [','] = false ∧
      (lint config (hollowRule ['a']) none).warnings.map
          (fun warning => (warning.rule, warning.severity)) = [] ∧
      (lint config (hollowRule (['a'] ++ ' ' :: comment [','])) none).warnings.map
          (fun warning => (warning.rule, warning.severity)) =
        [(Reporter.syntaxErrorRule, .error)] := by
  decide +kernel

end CssLint
