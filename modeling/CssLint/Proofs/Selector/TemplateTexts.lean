import CssLint.Proofs.Selector.NestedTexts
import CssLint.Proofs.Selector.PlainText
import CssLint.Selector.Entries
import CssLint.Selector.Standard

/-!
# Texts of templates inside rules

A mark of a template, once it is in a text, cannot be removed: joining texts leaves it
whole, and no selector that is put in the place of `&` is empty, so that even a
hole with `&` inside stays one.  A placeholder is only known at the beginning of a text,
and stays there as long as nothing is put in front of it.
-/

namespace CssLint.Selector

open Text Written

/-! ## Selectors in the place of `&` -/

/-- Where `&` occurs, what takes its place is a part of the text. -/
theorem infix_replaceNestingFrom {around : List Char} {scanner : Scanner} {text : List Char}
    (present : containsNestingFrom scanner text = true) :
    around <:+: replaceNestingFrom around scanner text := by
  induction text generalizing scanner with
  | nil => cases present
  | cons c text inductionHypothesis =>
      rw [replaceNestingFrom]
      split
      · exact (List.prefix_append around _).isInfix
      · rename_i other
        rw [containsNestingFrom, Bool.or_eq_true] at present
        exact (inductionHypothesis (present.resolve_left other)).trans (List.suffix_cons c _).isInfix

/-- Nothing else than `&` is replaced. -/
theorem replaceNestingFrom_ne_nil {around : List Char} (nonempty : around ≠ [])
    (scanner : Scanner) {text : List Char} (some_ : text ≠ []) :
    replaceNestingFrom around scanner text ≠ [] := by
  cases text with
  | nil => exact absurd rfl some_
  | cons c text =>
      rw [replaceNestingFrom]
      split
      · exact List.append_ne_nil_of_left_ne_nil nonempty _
      · exact List.cons_ne_nil _ _

theorem survives_ne_nil : Survives (· ≠ []) (· ≠ []) :=
  ⟨fun nonempty _ => List.append_ne_nil_of_left_ne_nil nonempty _,
    fun some_ nonempty => replaceNestingFrom_ne_nil nonempty .start some_⟩

/-! ## Marks of templates -/

/-- The words that preprocessors and templates write into selectors. -/
def templateWords : List (List Char) :=
  [":extend".toList, ['<', '%'], ['%', '>']]

/-- The text has a hole in braces that is not empty, or a word of preprocessors or templates. -/
inductive IsTemplate : List Char → Prop
  | hole (front : List Char) {filling : List Char} (nonempty : filling ≠ []) (rest : List Char) :
      IsTemplate (front ++ '\x7b' :: (filling ++ '\x7d' :: rest))
  | word (front : List Char) {word : List Char} (member : word ∈ templateWords)
      (rest : List Char) : IsTemplate (front ++ word ++ rest)

namespace IsTemplate

variable {text : List Char}

theorem mono {more : List Char} (isTemplate : IsTemplate text) (part : text <:+: more) :
    IsTemplate more := by
  obtain ⟨before, behind, rfl⟩ := part
  cases isTemplate with
  | hole front nonempty rest =>
      have joined := hole (before ++ front) nonempty (rest ++ behind)
      simpa using joined
  | word front member rest =>
      have joined := word (before ++ front) member (rest ++ behind)
      simpa using joined

private theorem hasBraceHole_append (front : List Char) {filling : List Char}
    (nonempty : filling ≠ []) (rest : List Char) :
    hasBraceHole (front ++ '\x7b' :: (filling ++ '\x7d' :: rest)) = true := by
  induction front with
  | nil =>
      obtain ⟨c, filling, rfl⟩ := List.exists_cons_of_ne_nil nonempty
      simp [hasBraceHole]
  | cons c front inductionHypothesis =>
      rw [List.cons_append, hasBraceHole, inductionHypothesis, Bool.or_true]

/-- No text of a template is plain CSS. -/
theorem isStandard_eq_false (isTemplate : IsTemplate text) : isStandard text = false := by
  cases isTemplate with
  | hole front nonempty rest =>
      simp [isStandard, hasInterpolation, hasBraceHole_append front nonempty rest]
  | @word front word member rest =>
      have found : contains word (front ++ word ++ rest) = true :=
        contains_iff_isInfix.2 ⟨front, rest, rfl⟩
      generalize front ++ word ++ rest = text at found ⊢
      simp only [templateWords, List.mem_cons, List.not_mem_nil, or_false] at member
      rcases member with rfl | rfl | rfl
      · have extends_ : hasExtend text = true := found
        simp [isStandard, extends_]
      · simp [isStandard, found]
      · simp [isStandard, found]

/-- No `&` stands in the words, and what is put into a hole does not empty it. -/
theorem replaceNestingFrom {around : List Char} (nonempty : around ≠ []) (scanner : Scanner)
    (isTemplate : IsTemplate text) :
    IsTemplate (Selector.replaceNestingFrom around scanner text) := by
  cases isTemplate with
  | hole front filled rest =>
      rw [replaceNestingFrom_append, Selector.replaceNestingFrom, if_neg (by simp),
        replaceNestingFrom_append, Selector.replaceNestingFrom, if_neg (by simp)]
      exact .hole _ (replaceNestingFrom_ne_nil nonempty _ filled) _
  | @word front word member rest =>
      have noNesting : ∀ word ∈ templateWords, '&' ∉ word := by decide
      rw [replaceNestingFrom_append, replaceNestingFrom_append,
        replaceNestingFrom_eq_self around
          (containsNestingFrom_eq_false (noNesting word member) _)]
      exact .word _ member _

theorem survives : Survives (· ≠ []) IsTemplate :=
  ⟨fun _ isTemplate => isTemplate.mono
      ((List.suffix_cons ' ' _).trans (List.suffix_append _ _)).isInfix,
    fun isTemplate nonempty => isTemplate.replaceNestingFrom nonempty .start⟩

end IsTemplate

/-- Everything that a selector stands for inside a rule whose entries are texts of templates is one,
whatever stands between the two and around the rule. -/
theorem isTemplate_of_mem_resolve {entries : List (List Char)}
    (marked : ∀ entry ∈ entries, IsTemplate entry) (nearer : List (List (List Char)))
    {outer : List (List (List Char))}
    (ofOuter : ∀ entries ∈ outer, ∀ entry ∈ entries, entry ≠ []) (selector : List Char) :
    ∀ resolved ∈ resolve (nearer ++ entries :: outer) selector, IsTemplate resolved := by
  have ofMarked : ∀ {entry}, IsTemplate entry → ∀ resolved ∈ resolve outer entry,
      IsTemplate resolved := fun isTemplate =>
    survives_ne_nil.forall_mem_resolve IsTemplate.survives ofOuter isTemplate
  refine @forall_mem_resolve_append (fun _ => True) IsTemplate nearer (entries :: outer)
    (fun {selector} _ resolved member => ?_)
    (fun _ present isTemplate => isTemplate.mono (infix_replaceNestingFrom present))
    (fun _ _ _ => trivial) (fun _ _ _ _ => trivial) selector trivial
  rw [resolve] at member
  split at member
  · rename_i present
    obtain ⟨entry, inEntries, found⟩ := List.mem_flatMap.1 member
    obtain ⟨around, inOuter, rfl⟩ := List.mem_map.1 found
    exact (ofMarked (marked entry inEntries) around inOuter).mono
      (infix_replaceNestingFrom present)
  · obtain ⟨entry, inEntries, found⟩ := List.mem_flatMap.1 member
    have joined : IsTemplate (entry ++ ' ' :: selector) :=
      (marked entry inEntries).mono (List.prefix_append entry _).isInfix
    exact ofMarked joined resolved found

/-! ## Placeholders -/

/-- The text begins with the sign of a placeholder. -/
def BeginsPlaceholder (text : List Char) : Prop :=
  text.head? = some '%'

instance (text : List Char) : Decidable (BeginsPlaceholder text) :=
  inferInstanceAs (Decidable (_ = _))

/-- The text begins with `&`, or has no `&` at all: what it stands for begins with the selector of
the enclosing rule. -/
def KeepsFront (text : List Char) : Prop :=
  text.head? = some '&' ∨ '&' ∉ text

instance (text : List Char) : Decidable (KeepsFront text) :=
  inferInstanceAs (Decidable (_ ∨ _))

theorem BeginsPlaceholder.append {text : List Char} (begins : BeginsPlaceholder text)
    (more : List Char) : BeginsPlaceholder (text ++ more) := by
  cases text with
  | nil => cases begins
  | cons c text => exact begins

theorem BeginsPlaceholder.isStandard_eq_false {text : List Char}
    (begins : BeginsPlaceholder text) : isStandard text = false := by
  cases text with
  | nil => cases begins
  | cons c text =>
      obtain rfl : c = '%' := Option.some.inj begins
      have kept : trimStart ('%' :: text) = '%' :: text :=
        List.dropWhile_cons_of_neg (by decide)
      simp [isStandard, kept]

theorem BeginsPlaceholder.replaceNesting {text : List Char} (begins : BeginsPlaceholder text)
    (around : List Char) : BeginsPlaceholder (replaceNesting text around) := by
  cases text with
  | nil => cases begins
  | cons c text =>
      obtain rfl : c = '%' := Option.some.inj begins
      rfl

/-- A selector with `&` in front stands for texts that begin with the selector around it. -/
theorem KeepsFront.begins_replaceNesting {selector around : List Char}
    (keeps : KeepsFront selector) (present : containsNesting selector = true)
    (begins : BeginsPlaceholder around) : BeginsPlaceholder (replaceNesting selector around) := by
  rcases keeps with front | absent
  · cases selector with
    | nil => cases front
    | cons c selector =>
        obtain rfl : c = '&' := Option.some.inj front
        exact begins.append _
  · rw [containsNesting_eq_false absent] at present
    cases present

theorem KeepsFront.not_mem {selector : List Char} (keeps : KeepsFront selector)
    (absent : containsNesting selector = false) : '&' ∉ selector := by
  refine keeps.resolve_left fun front => ?_
  obtain ⟨more, rfl⟩ := List.head?_eq_some_iff.1 front
  cases absent

theorem KeepsFront.joined {entry selector : List Char} (keeps : KeepsFront entry)
    (absent : '&' ∉ selector) : KeepsFront (entry ++ ' ' :: selector) := by
  rcases keeps with front | none_
  · left
    cases entry with
    | nil => cases front
    | cons c entry => exact front
  · right
    simp [none_, absent]

/-- What begins with a placeholder stands for such texts only, where no rule is around it or it says
itself where the selector of that rule goes. -/
theorem BeginsPlaceholder.forall_mem_resolve {text : List Char} {outer : List (List (List Char))}
    (begins : BeginsPlaceholder text)
    (outermost : outer = [] ∨ containsNesting text = true) :
    ∀ resolved ∈ resolve outer text, BeginsPlaceholder resolved := by
  intro resolved member
  cases outer with
  | nil =>
      rw [resolve, List.mem_singleton] at member
      rwa [member]
  | cons entries outer =>
      rw [resolve, if_pos (outermost.resolve_left (List.cons_ne_nil _ _))] at member
      obtain ⟨entry, _, found⟩ := List.mem_flatMap.1 member
      obtain ⟨around, _, rfl⟩ := List.mem_map.1 found
      exact begins.replaceNesting around

/-- Inside a placeholder that nothing stands in front of, selectors that keep the front stand for
texts that begin with the placeholder. -/
theorem beginsPlaceholder_of_mem_resolve {entries : List (List Char)}
    {nearer outer : List (List (List Char))}
    (marked : ∀ entry ∈ entries, BeginsPlaceholder entry)
    (outermost : outer = [] ∨ ∀ entry ∈ entries, containsNesting entry = true)
    (keepsNearer : ∀ entries ∈ nearer, ∀ entry ∈ entries, KeepsFront entry)
    {selector : List Char} (keeps : KeepsFront selector) :
    ∀ resolved ∈ resolve (nearer ++ entries :: outer) selector, BeginsPlaceholder resolved := by
  refine forall_mem_resolve_append (fun {selector} keeps resolved member => ?_)
    KeepsFront.begins_replaceNesting
    (fun keepsEntry keeps absent => keepsEntry.joined (keeps.not_mem absent)) keepsNearer keeps
  rw [resolve] at member
  split at member
  · rename_i present
    obtain ⟨entry, inEntries, found⟩ := List.mem_flatMap.1 member
    obtain ⟨around, inOuter, rfl⟩ := List.mem_map.1 found
    have begins := (marked entry inEntries).forall_mem_resolve
      (outermost.imp_right fun present => present entry inEntries) around inOuter
    exact keeps.begins_replaceNesting present begins
  · obtain ⟨entry, inEntries, found⟩ := List.mem_flatMap.1 member
    refine ((marked entry inEntries).append (' ' :: selector)).forall_mem_resolve
      (outermost.imp_right fun present => ?_) resolved found
    have ofEntry : containsNestingFrom .start entry = true := present entry inEntries
    rw [containsNesting, containsNestingFrom_append, ofEntry, Bool.true_or]

end CssLint.Selector
