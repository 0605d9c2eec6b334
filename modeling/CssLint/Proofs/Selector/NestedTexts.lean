import CssLint.Selector.Nesting
import Mathlib.Data.List.Basic

/-!
# Nesting selectors in joined texts

Behind a text that leaves nothing open a selector is scanned as if it stood alone.
So joining selectors first and putting the enclosing ones in place of `&` later gives
the same as resolving the enclosing selector by itself: `resolve_cons` is the equation
for one level that does not tell the two apart.
-/

namespace CssLint.Selector

/-- Behind the text no quote and no square bracket is open, and no backslash is pending. -/
def IsDelimited (text : List Char) : Prop :=
  Scanner.scan .square .start text = .start

instance (text : List Char) : Decidable (IsDelimited text) :=
  inferInstanceAs (Decidable (_ = _))

/-- The selector inside a rule that stands for `around`. -/
def nest (selector around : List Char) : List Char :=
  if containsNesting selector then replaceNesting selector around else around ++ ' ' :: selector

/-! ## Joined texts -/

theorem containsNestingFrom_append (scanner : Scanner) (left right : List Char) :
    containsNestingFrom scanner (left ++ right) =
      (containsNestingFrom scanner left ||
        containsNestingFrom (scanner.scan .square left) right) := by
  induction left generalizing scanner with
  | nil => rfl
  | cons c left inductionHypothesis =>
      simp only [List.cons_append, containsNestingFrom, inductionHypothesis, Bool.or_assoc,
        Scanner.scan_cons]

theorem replaceNestingFrom_append (around : List Char) (scanner : Scanner)
    (left right : List Char) :
    replaceNestingFrom around scanner (left ++ right) =
      replaceNestingFrom around scanner left ++
        replaceNestingFrom around (scanner.scan .square left) right := by
  induction left generalizing scanner with
  | nil => rfl
  | cons c left inductionHypothesis =>
      simp only [List.cons_append, replaceNestingFrom, inductionHypothesis, Scanner.scan_cons]
      split
      · exact (List.append_assoc ..).symm
      · rfl

/-- A text without nesting selectors is left as it is. -/
theorem replaceNestingFrom_eq_self (around : List Char) {scanner : Scanner} {text : List Char}
    (absent : containsNestingFrom scanner text = false) :
    replaceNestingFrom around scanner text = text := by
  induction text generalizing scanner with
  | nil => rfl
  | cons c text inductionHypothesis =>
      rw [containsNestingFrom, Bool.or_eq_false_iff] at absent
      rw [replaceNestingFrom, absent.1, inductionHypothesis absent.2]
      rfl

private theorem scan_space (left : List Char) (delimited : IsDelimited left) :
    Scanner.scan .square .start (left ++ [' ']) = .start := by
  rw [Scanner.scan_append, delimited]
  rfl

theorem IsDelimited.joined {left right : List Char} (delimited : IsDelimited left)
    (delimitedRight : IsDelimited right) : IsDelimited (left ++ ' ' :: right) := by
  rw [IsDelimited, List.append_cons, Scanner.scan_append, scan_space left delimited]
  exact delimitedRight

theorem containsNesting_joined {left : List Char} (delimited : IsDelimited left)
    (right : List Char) :
    containsNesting (left ++ ' ' :: right) = (containsNesting left || containsNesting right) := by
  rw [containsNesting, containsNestingFrom_append, delimited]
  rfl

theorem replaceNesting_joined {left : List Char} (delimited : IsDelimited left)
    {right : List Char} (absent : containsNesting right = false) (around : List Char) :
    replaceNesting (left ++ ' ' :: right) around =
      replaceNesting left around ++ ' ' :: right := by
  have same : replaceNestingFrom around .start right = right :=
    replaceNestingFrom_eq_self around absent
  rw [replaceNesting, replaceNestingFrom_append, delimited]
  exact congrArg (fun text => replaceNesting left around ++ ' ' :: text) same

/-! ## Resolving -/

/-- The entries at every level leave nothing open. -/
def AllDelimited (levels : List (List (List Char))) : Prop :=
  ∀ entries ∈ levels, ∀ entry ∈ entries, IsDelimited entry

/-- Where a selector without `&` is joined to an entry, only the entry is resolved. -/
theorem resolve_joined {outer : List (List (List Char))} (delimitedOuter : AllDelimited outer)
    {entry : List Char} (delimited : IsDelimited entry) {selector : List Char}
    (absent : containsNesting selector = false) :
    resolve outer (entry ++ ' ' :: selector) =
      (resolve outer entry).map fun around => around ++ ' ' :: selector := by
  induction outer generalizing entry with
  | nil => rfl
  | cons entries outer inductionHypothesis =>
      have ofEntries := delimitedOuter entries List.mem_cons_self
      have ofOuter : AllDelimited outer :=
        fun others member => delimitedOuter others (List.mem_cons_of_mem entries member)
      have present : containsNesting (entry ++ ' ' :: selector) = containsNesting entry := by
        rw [containsNesting_joined delimited, absent, Bool.or_false]
      rw [resolve, resolve, present]
      split
      · rw [List.map_flatMap]
        apply List.flatMap_congr
        intro above member
        rw [List.map_map]
        apply List.map_congr_left
        intro around _
        exact replaceNesting_joined delimited absent around
      · rw [List.map_flatMap]
        apply List.flatMap_congr
        intro above member
        have joined : above ++ ' ' :: (entry ++ ' ' :: selector) =
            (above ++ ' ' :: entry) ++ ' ' :: selector := by simp
        rw [joined]
        exact inductionHypothesis ofOuter ((ofEntries above member).joined delimited)

/-- A selector inside a rule stands for itself inside all that the entries of the rule stand
for. -/
theorem resolve_cons {entries : List (List Char)} {outer : List (List (List Char))}
    (delimited : AllDelimited (entries :: outer)) (selector : List Char) :
    resolve (entries :: outer) selector =
      entries.flatMap fun entry => (resolve outer entry).map (nest selector) := by
  have ofOuter : AllDelimited outer :=
    fun others member => delimited others (List.mem_cons_of_mem entries member)
  rw [resolve]
  cases present : containsNesting selector with
  | true =>
      have same : nest selector = replaceNesting selector := by
        funext around
        rw [nest, present]
        rfl
      rw [same]
      rfl
  | false =>
      have same : nest selector = fun around => around ++ ' ' :: selector := by
        funext around
        rw [nest, present]
        rfl
      rw [same]
      apply List.flatMap_congr
      intro entry member
      exact resolve_joined ofOuter (delimited entries List.mem_cons_self entry member) present

/-- A selector without `&` is read as if `&` and a space stood in front. -/
theorem nest_ampersand {selector : List Char} (absent : containsNesting selector = false) :
    nest ('&' :: ' ' :: selector) = nest selector := by
  funext around
  have same : replaceNestingFrom around .start selector = selector :=
    replaceNestingFrom_eq_self around absent
  have present : containsNesting ('&' :: ' ' :: selector) = true := rfl
  rw [nest, nest, present, absent]
  exact congrArg (fun text => around ++ ' ' :: text) same

/-! ## What resolving keeps -/

/-- A property of texts goes over to what they stand for, inside entries that are `inside`. -/
structure Survives (inside property : List Char → Prop) : Prop where
  joined : ∀ {entry selector : List Char}, inside entry → property selector →
    property (entry ++ ' ' :: selector)
  replaced : ∀ {selector around : List Char}, property selector → inside around →
    property (replaceNesting selector around)

theorem Survives.forall_mem_resolve {inside property : List Char → Prop}
    {levels : List (List (List Char))} (closed : Survives inside inside)
    (survives : Survives inside property)
    (ofLevels : ∀ entries ∈ levels, ∀ entry ∈ entries, inside entry) {selector : List Char}
    (holds : property selector) : ∀ resolved ∈ resolve levels selector, property resolved := by
  induction levels generalizing property selector with
  | nil =>
      intro resolved member
      rw [resolve, List.mem_singleton] at member
      rwa [member]
  | cons entries outer inductionHypothesis =>
      obtain ⟨own, further⟩ := List.forall_mem_cons.1 ofLevels
      intro resolved member
      rw [resolve] at member
      split at member
      · obtain ⟨entry, inEntries, found⟩ := List.mem_flatMap.1 member
        obtain ⟨around, inOuter, rfl⟩ := List.mem_map.1 found
        -- what is put in the place of `&` is itself resolved, so it is `inside`
        exact survives.replaced holds
          (inductionHypothesis closed further (own entry inEntries) around inOuter)
      · obtain ⟨entry, inEntries, found⟩ := List.mem_flatMap.1 member
        exact inductionHypothesis survives further
          (survives.joined (own entry inEntries) holds) resolved found

/-- What selectors stand for at some levels goes over to what they stand for with further levels inside
those: there they only take the place of `&`, or have a selector without it behind them. -/
theorem forall_mem_resolve_append {keeps property : List Char → Prop}
    {nearer levels : List (List (List Char))}
    (base : ∀ {selector}, keeps selector → ∀ resolved ∈ resolve levels selector, property resolved)
    (replaced : ∀ {selector around : List Char}, keeps selector →
      containsNesting selector = true → property around → property (replaceNesting selector around))
    (joined : ∀ {entry selector : List Char}, keeps entry → keeps selector →
      containsNesting selector = false → keeps (entry ++ ' ' :: selector))
    (keepsNearer : ∀ entries ∈ nearer, ∀ entry ∈ entries, keeps entry) {selector : List Char}
    (keepsSelector : keeps selector) :
    ∀ resolved ∈ resolve (nearer ++ levels) selector, property resolved := by
  induction nearer generalizing selector with
  | nil => exact base keepsSelector
  | cons entries nearer inductionHypothesis =>
      obtain ⟨own, further⟩ := List.forall_mem_cons.1 keepsNearer
      intro resolved member
      rw [List.cons_append, resolve] at member
      split at member
      · rename_i present
        obtain ⟨entry, inEntries, found⟩ := List.mem_flatMap.1 member
        obtain ⟨around, inNearer, rfl⟩ := List.mem_map.1 found
        exact replaced keepsSelector present
          (inductionHypothesis further (own entry inEntries) around inNearer)
      · rename_i absent
        obtain ⟨entry, inEntries, found⟩ := List.mem_flatMap.1 member
        exact inductionHypothesis further
          (joined (own entry inEntries) keepsSelector (by simpa using absent)) resolved found

end CssLint.Selector
