import CssLint.Proofs.Selector.ChangeText
import CssLint.Proofs.Selector.NestedTexts
import CssLint.Proofs.Selector.PlainEntries

/-!
# Entries of changed texts

The scanner for the entries of a list, and the one for nesting selectors, pass over
line feeds whatever their form.  Where the tail of a change holds no comma, it only
makes the last entry longer, and where it holds no nesting selector, it stays
behind the selectors that the text stands for.
-/

namespace CssLint.Selector

open Text
open Written (glue glue_nil glue_glue splitFrom_cons splitFrom_ne_nil
  containsNestingFrom_eq_false)

variable {change : Change}

/-! ## Scanning -/

namespace Scanner

variable {brackets : Brackets}

/-- A blank character can only be the one that a backslash takes. -/
theorem step_of_isBlank (plain : ∀ c ∈ brackets.openers ++ brackets.closers, isBlank c = false)
    (scanner : Scanner) {c : Char} (blank : isBlank c = true) :
    scanner.step brackets c = { scanner with escaped := false } := by
  obtain ⟨quote, escaped, depth⟩ := scanner
  have other : ∀ {sign : Char}, isBlank sign = false → c ≠ sign :=
    fun notBlank => ne_of_isBlank blank notBlank
  have notOpening : c ∉ brackets.openers :=
    fun member => other (plain c (List.mem_append_left _ member)) rfl
  have notClosing : c ∉ brackets.closers :=
    fun member => other (plain c (List.mem_append_right _ member)) rfl
  have notBackslash : c ≠ '\\' := other rfl
  have notDouble : c ≠ '"' := other rfl
  have notSingle : c ≠ '\'' := other rfl
  cases escaped with
  | true => rfl
  | false => simp [step, notOpening, notClosing, notBackslash, notDouble, notSingle]

theorem scan_expand (plain : ∀ c ∈ brackets.openers ++ brackets.closers, isBlank c = false)
    (scanner : Scanner) (text : List Char) :
    scanner.scan brackets (change.expand text) = scanner.scan brackets text := by
  induction text generalizing scanner with
  | nil => rfl
  | cons c text inductionHypothesis =>
      rw [← List.singleton_append, change.expand_append, scan_append, scan_append,
        inductionHypothesis]
      congr 1
      by_cases feed : c = '\n'
      · subst feed
        rw [change.expand_feed]
        rcases change.feed_cases with same | same
        · rw [same]
        · rw [same, scan_cons, scan_cons, scan_cons, step_of_isBlank plain _ rfl,
            step_of_isBlank plain _ rfl, step_of_isBlank plain _ rfl]
      · rw [change.expand_singleton feed]

end Scanner

private theorem plain_all :
    ∀ c ∈ Brackets.all.openers ++ Brackets.all.closers, isBlank c = false :=
  List.all_iff_forall_prop.1 (by decide)

private theorem plain_square :
    ∀ c ∈ Brackets.square.openers ++ Brackets.square.closers, isBlank c = false :=
  List.all_iff_forall_prop.1 (by decide)

/-! ## Entries -/

theorem splitFrom_append {separator : Char} {left : List Char} (absent : separator ∉ left)
    (scanner : Scanner) (rest : List Char) :
    splitFrom separator scanner (left ++ rest) =
      glue left (splitFrom separator (scanner.scan .all left) rest) := by
  induction left generalizing scanner with
  | nil => exact (glue_nil (splitFrom_ne_nil _ _ _)).symm
  | cons c left inductionHypothesis =>
      rw [List.mem_cons, not_or] at absent
      rw [List.cons_append, splitFrom_cons (by simp [Ne.symm absent.1]),
        inductionHypothesis absent.2, glue_glue]
      rfl

/-- The parts of a changed text are the changed parts, and the last one has the tail. -/
theorem splitFrom_apply {separator : Char} (notBlank : isBlank separator = false)
    (absent : separator ∉ change.tail) (scanner : Scanner) (text : List Char) :
    ∃ front last, splitFrom separator scanner text = front ++ [last] ∧
      splitFrom separator scanner (change.apply text) =
        front.map change.expand ++ [change.apply last] := by
  induction text generalizing scanner with
  | nil =>
      refine ⟨[], [], rfl, ?_⟩
      have tail := splitFrom_append absent scanner []
      rw [List.append_nil] at tail
      rw [change.apply_nil, tail]
      simp [splitFrom, glue]
  | cons c text inductionHypothesis =>
      obtain ⟨front, last, parts, changed⟩ := inductionHypothesis (scanner.step .all c)
      by_cases divides : (scanner.isIdle && c = separator) = true
      · have same : c = separator := by
          rw [Bool.and_eq_true, decide_eq_true_eq] at divides
          exact divides.2
        have noFeed : c ≠ '\n' := by
          rintro rfl
          rw [← same] at notBlank
          cases notBlank
        refine ⟨[] :: front, last, ?_, ?_⟩
        · rw [splitFrom, if_pos divides, parts]
          rfl
        · rw [change.apply_cons noFeed, splitFrom, if_pos divides, changed]
          rfl
      · have stays := Bool.eq_false_iff.2 divides
        have here : splitFrom separator scanner (change.apply (c :: text)) =
            glue (change.expand [c])
              (splitFrom separator (scanner.step .all c) (change.apply text)) := by
          by_cases feed : c = '\n'
          · have noSeparator : separator ∉ change.expand [c] := by
              intro member
              rw [feed, change.expand_feed] at member
              rw [change.isBlank_of_mem_feed separator member] at notBlank
              cases notBlank
            rw [← List.singleton_append, change.apply_append, splitFrom_append noSeparator,
              Scanner.scan_expand plain_all]
            rfl
          · rw [change.apply_cons feed, splitFrom_cons stays, change.expand_singleton feed]
        rw [splitFrom_cons stays, here, parts, changed]
        cases front with
        | nil =>
            have joined : change.apply (c :: last) = change.expand [c] ++ change.apply last :=
              change.apply_append [c] last
            exact ⟨[], c :: last, rfl, by rw [joined]; rfl⟩
        | cons part front =>
            have joined : change.expand (c :: part) = change.expand [c] ++ change.expand part :=
              change.expand_append [c] part
            exact ⟨(c :: part) :: front, last, rfl, by rw [List.map_cons, List.map_cons, joined]; rfl⟩

/-! ## Changes without a tail -/

namespace Change

/-- The change without its tail. -/
def bare (change : Change) : Change :=
  ⟨change.feed, [], change.feed_cases, by simp⟩

@[simp] theorem bare_apply (text : List Char) : change.bare.apply text = change.expand text :=
  List.append_nil _

end Change

theorem entries_expand (text : List Char) :
    entries (change.expand text) = (entries text).map change.expand := by
  have keeps : ((fun entry : List Char => !entry.isEmpty) ∘ change.expand) =
      fun entry => !entry.isEmpty := by
    funext entry
    exact congrArg not (change.isEmpty_expand entry)
  obtain ⟨front, last, parts, changed⟩ : ∃ front last, split ',' text = front ++ [last] ∧
      split ',' (change.bare.apply text) =
        front.map change.bare.expand ++ [change.bare.apply last] :=
    splitFrom_apply rfl (by simp [Change.bare]) .start text
  have whole : split ',' (change.expand text) = (split ',' text).map change.expand := by
    rw [change.bare_apply, change.bare_apply] at changed
    rw [parts, List.map_append]
    exact changed
  have trims : trim ∘ change.expand = change.expand ∘ trim := funext change.trim_expand
  rw [entries, entries, whole, List.map_map, trims, ← List.map_map, List.filter_map, keeps]

/-- The last part is the end of the text. -/
theorem suffix_of_splitFrom {separator : Char} {scanner : Scanner} {text last : List Char}
    {front : List (List Char)} (parts : splitFrom separator scanner text = front ++ [last]) :
    ∃ left, left ++ last = text ∧ (front = [] → left = []) := by
  induction text generalizing scanner front last with
  | nil =>
      cases front with
      | nil => exact ⟨[], (List.cons.inj parts).1.symm, fun _ => rfl⟩
      | cons _ front => simp [splitFrom] at parts
  | cons c text inductionHypothesis =>
      by_cases divides : (scanner.isIdle && c = separator) = true
      · rw [splitFrom, if_pos divides] at parts
        cases front with
        | nil => exact absurd (List.cons.inj parts).2 (splitFrom_ne_nil _ _ _)
        | cons _ front =>
            obtain ⟨left, rfl, -⟩ := inductionHypothesis (List.cons.inj parts).2
            exact ⟨c :: left, rfl, by simp⟩
      · rw [splitFrom_cons (Bool.eq_false_iff.2 divides)] at parts
        cases later : splitFrom separator (scanner.step .all c) text with
        | nil => exact absurd later (splitFrom_ne_nil _ _ _)
        | cons part others =>
            rw [later] at parts
            cases front with
            | nil =>
                obtain ⟨rfl, none⟩ := List.cons.inj parts
                have alone : splitFrom separator (scanner.step .all c) text = [] ++ [part] := by
                  rw [later, none]
                  rfl
                obtain ⟨left, same, whole⟩ := inductionHypothesis alone
                rw [whole rfl] at same
                exact ⟨[], congrArg (c :: ·) same, fun _ => rfl⟩
            | cons _ front =>
                obtain ⟨-, rfl⟩ := List.cons.inj parts
                obtain ⟨left, rfl, -⟩ := inductionHypothesis (later.trans (List.cons_append ..).symm)
                exact ⟨c :: left, rfl, by simp⟩

/-- Where the text ends with a part of its own, its last entry is the one that gets the tail. -/
theorem entries_apply {text : List Char} (absent : ',' ∉ change.tail) (bareEnd : BareEnd text)
    (nonempty : [] ∉ (split ',' text).getLast?) (tail : BareEnd change.tail) :
    ∃ front last, entries text = front ++ [last] ∧
      entries (change.apply text) = front.map change.expand ++ [change.apply last] := by
  obtain ⟨front, last, parts, changed⟩ : ∃ front last, split ',' text = front ++ [last] ∧
      split ',' (change.apply text) = front.map change.expand ++ [change.apply last] :=
    splitFrom_apply rfl absent .start text
  obtain ⟨left, joined, -⟩ := suffix_of_splitFrom parts
  have bareLast : BareEnd last := by
    obtain ⟨more, c, same, notSpace⟩ := bareEnd
    have some : last ≠ [] := by
      rintro rfl
      exact nonempty (by rw [parts, List.getLast?_concat]; rfl)
    obtain ⟨init, final, rfl⟩ := List.eq_nil_or_concat' last |>.resolve_left some
    rw [same, ← List.append_assoc] at joined
    obtain ⟨-, rfl⟩ := List.append_inj' joined rfl |>.imp_right List.singleton_inj.1
    exact ⟨init, final, rfl, notSpace⟩
  have own : trim last = trimStart last := trimEnd_eq_self bareLast.trimStart
  have some : (trim last).isEmpty = false := by
    obtain ⟨init, final, same, -⟩ := bareLast.trimStart
    rw [own, same]
    simp
  have trimmed : trim (change.apply last) = change.apply (trim last) := by
    rw [trim, change.trimStart_apply, ← own, some, if_neg Bool.false_ne_true]
    exact trimEnd_eq_self (tail.append _)
  have someApplied : (change.apply (trim last)).isEmpty = false := by
    obtain ⟨init, final, same, -⟩ := tail.append (change.expand (trim last))
    rw [Change.apply, same]
    simp
  have keeps : ((fun entry : List Char => !entry.isEmpty) ∘ change.expand) =
      fun entry => !entry.isEmpty := by
    funext entry
    exact congrArg not (change.isEmpty_expand entry)
  have trims : trim ∘ change.expand = change.expand ∘ trim := funext change.trim_expand
  refine ⟨(front.map trim).filter fun entry => !entry.isEmpty, trim last, ?_, ?_⟩
  · rw [entries, parts, List.map_append, List.filter_append]
    simp [some]
  · rw [entries, changed, List.map_append, List.filter_append, List.map_map, trims,
      ← List.map_map, List.filter_map, keeps]
    simp [trimmed, someApplied]

/-! ## Nesting selectors -/

section Nesting

variable (absent : '&' ∉ change.tail)

include absent

theorem containsNestingFrom_apply (scanner : Scanner) (text : List Char) :
    containsNestingFrom scanner (change.apply text) = containsNestingFrom scanner text := by
  induction text generalizing scanner with
  | nil => exact containsNestingFrom_eq_false absent scanner
  | cons c text inductionHypothesis =>
      rw [← List.singleton_append, change.apply_append, containsNestingFrom_append,
        containsNestingFrom_append, Scanner.scan_expand plain_square, inductionHypothesis]
      congr 1
      by_cases feed : c = '\n'
      · subst feed
        rw [change.expand_feed]
        rcases change.feed_cases with same | same <;> simp [same, containsNestingFrom]
      · rw [change.expand_singleton feed]

theorem replaceNestingFrom_apply (around : List Char) (scanner : Scanner) (text : List Char) :
    replaceNestingFrom (change.expand around) scanner (change.apply text) =
      change.apply (replaceNestingFrom around scanner text) := by
  induction text generalizing scanner with
  | nil => exact replaceNestingFrom_eq_self _ (containsNestingFrom_eq_false absent scanner)
  | cons c text inductionHypothesis =>
      rw [← List.singleton_append, change.apply_append, replaceNestingFrom_append,
        replaceNestingFrom_append, Scanner.scan_expand plain_square, inductionHypothesis,
        change.apply_append]
      congr 1
      by_cases feed : c = '\n'
      · subst feed
        rw [change.expand_feed]
        rcases change.feed_cases with same | same <;>
          simp [same, replaceNestingFrom, Change.expand]
      · rw [change.expand_singleton feed]
        by_cases nests : (scanner.isIdle && c = '&') = true
        · simp only [replaceNestingFrom, nests, if_true, List.append_nil]
        · simp only [replaceNestingFrom, nests, if_false, Bool.false_eq_true,
            change.expand_singleton feed]

theorem resolve_apply (outer : List (List (List Char))) (selector : List Char) :
    resolve (outer.map fun entries => entries.map change.expand) (change.apply selector) =
      (resolve outer selector).map change.apply := by
  induction outer generalizing change selector with
  | nil => rfl
  | cons entries outer inductionHypothesis =>
      have contains_ : containsNesting (change.apply selector) = containsNesting selector :=
        containsNestingFrom_apply absent .start selector
      rw [List.map_cons, resolve, resolve, contains_]
      split
      · have inside : ∀ entry, resolve (outer.map fun entries => entries.map change.expand)
            (change.expand entry) = (resolve outer entry).map change.expand := by
          intro entry
          have bare := @inductionHypothesis change.bare (by simp [Change.bare]) entry
          have applied : change.bare.apply = change.expand := funext fun _ => change.bare_apply _
          rw [applied] at bare
          exact bare
        have replaced : replaceNesting (change.apply selector) ∘ change.expand =
            change.apply ∘ replaceNesting selector :=
          funext fun around => replaceNestingFrom_apply absent around .start selector
        simp only [List.flatMap_map, List.map_flatMap, inside, List.map_map, replaced]
      · have joined : ∀ entry, change.expand entry ++ ' ' :: change.apply selector =
            change.apply (entry ++ ' ' :: selector) := by
          intro entry
          rw [change.apply_append, change.apply_cons (by decide)]
        simp only [List.flatMap_map, List.map_flatMap, joined, inductionHypothesis absent]

end Nesting

/-! ## Characters -/

theorem part_subset {separator : Char} {scanner : Scanner} {text part : List Char}
    (member : part ∈ splitFrom separator scanner text) : part ⊆ text := by
  induction text generalizing scanner part with
  | nil =>
      rw [splitFrom, List.mem_singleton] at member
      rw [member]
      exact List.Subset.refl []
  | cons c text inductionHypothesis =>
      rw [splitFrom] at member
      split at member
      · rcases List.mem_cons.1 member with rfl | later
        · exact List.nil_subset _
        · exact List.subset_cons_of_subset c (inductionHypothesis later)
      · split at member
        · rename_i none
          exact absurd none (splitFrom_ne_nil separator _ text)
        · rename_i first parts same
          rcases List.mem_cons.1 member with rfl | later
          · have ofFirst : first ∈ splitFrom separator (scanner.step .all c) text := by
              rw [same]
              exact List.mem_cons_self
            exact List.cons_subset_cons c (inductionHypothesis ofFirst)
          · have ofLater : part ∈ splitFrom separator (scanner.step .all c) text := by
              rw [same]
              exact List.mem_cons_of_mem first later
            exact List.subset_cons_of_subset c (inductionHypothesis ofLater)

theorem entry_subset {text entry : List Char} (member : entry ∈ entries text) :
    entry ⊆ text := by
  obtain ⟨part, inside, rfl⟩ := List.mem_map.1 (List.mem_filter.1 member).1
  exact List.Subset.trans (trim_subset part) (part_subset inside)

theorem replaceNestingFrom_subset (around : List Char) (scanner : Scanner) (text : List Char) :
    replaceNestingFrom around scanner text ⊆ around ++ text := by
  induction text generalizing scanner with
  | nil => exact List.nil_subset _
  | cons c text inductionHypothesis =>
      have later := fun scanner => List.Subset.trans (inductionHypothesis scanner)
        (List.append_subset.2 ⟨List.subset_append_left around (c :: text),
          List.Subset.trans (List.subset_cons_self c text) (List.subset_append_right around _)⟩)
      rw [replaceNestingFrom]
      split
      · exact List.append_subset.2 ⟨List.subset_append_left around _, later _⟩
      · refine List.cons_subset.2 ⟨?_, later _⟩
        exact List.mem_append_right around List.mem_cons_self

/-- Nothing but a space is added to the characters of a selector and of the entries around it. -/
theorem not_mem_resolve {c : Char} (noSpace : c ≠ ' ') {outer : List (List (List Char))}
    (around : ∀ entries ∈ outer, ∀ entry ∈ entries, c ∉ entry) {selector : List Char}
    (absent : c ∉ selector) : ∀ resolved ∈ resolve outer selector, c ∉ resolved := by
  have survives : Survives (c ∉ ·) (c ∉ ·) := by
    constructor
    · intro entry selector absentEntry absent
      simp [absentEntry, absent, noSpace]
    · intro selector around absent absentAround found
      exact (List.mem_append.1 (replaceNestingFrom_subset around .start selector found)).elim
        absentAround absent
  exact survives.forall_mem_resolve survives around absent

end CssLint.Selector
