import CssLint.Proofs.Selector.NestedTexts
import CssLint.Proofs.Text.Places

/-!
# Substitution for nesting selectors

Putting a text in the place of every nesting selector is an associative action, and `&`
is its unit.  A nesting selector only counts where nothing is open, so a text that
leaves nothing open is scanned the same inside each copy and outside, and the scan
behind the copy goes on as it did behind the `&`.
-/

namespace CssLint.Selector

open Text

/-! ## Offsets -/

/-- The bytes at which nesting selectors stand in the rest of a text, where the rest begins at byte
`start`. -/
def nestingOffsetsFrom (scanner : Scanner) (start : Nat) : List Char → List Nat
  | [] => []
  | c :: text =>
    (if scanner.isIdle && c = '&' then [start] else []) ++
      nestingOffsetsFrom (scanner.step .square c) (start + c.utf8Size) text

def nestingOffsets (text : List Char) : List Nat :=
  nestingOffsetsFrom .start 0 text

/-- The text from byte `copied` on, with a replacement for the one byte at each of the offsets. -/
def fillFrom (text replacement : List Char) (copied : Nat) : List Nat → List Char
  | [] => dropBytes copied text
  | offset :: offsets =>
    slice text copied offset ++ (replacement ++ fillFrom text replacement (offset + 1) offsets)

theorem nestingOffsetsFrom_eq_map (scanner : Scanner) (start : Nat) (text : List Char) :
    nestingOffsetsFrom scanner start text =
      (nestingOffsetsFrom scanner 0 text).map (start + ·) := by
  induction text generalizing scanner start with
  | nil => rfl
  | cons c text inductionHypothesis =>
      rw [nestingOffsetsFrom, nestingOffsetsFrom, inductionHypothesis,
        inductionHypothesis _ (0 + c.utf8Size), List.map_append, List.map_map]
      congr 1
      · split <;> rfl
      · refine List.map_congr_left fun offset _ => ?_
        simp only [Function.comp_apply]
        omega

theorem length_nestingOffsetsFrom (scanner : Scanner) (start : Nat) (text : List Char) :
    (nestingOffsetsFrom scanner start text).length =
      (nestingOffsetsFrom scanner 0 text).length := by
  rw [nestingOffsetsFrom_eq_map, List.length_map]

theorem nestingOffsetsFrom_append (scanner : Scanner) (start : Nat) (left right : List Char) :
    nestingOffsetsFrom scanner start (left ++ right) =
      nestingOffsetsFrom scanner start left ++
        nestingOffsetsFrom (scanner.scan .square left) (start + byteCount left) right := by
  induction left generalizing scanner start with
  | nil => rfl
  | cons c left inductionHypothesis =>
      rw [List.cons_append, nestingOffsetsFrom, inductionHypothesis, nestingOffsetsFrom,
        List.append_assoc, Scanner.scan_cons, byteCount_cons, Nat.add_assoc]

/-- A nesting selector occurs just where there is an offset of one. -/
theorem containsNestingFrom_eq (scanner : Scanner) (start : Nat) (text : List Char) :
    containsNestingFrom scanner text = !(nestingOffsetsFrom scanner start text).isEmpty := by
  induction text generalizing scanner start with
  | nil => rfl
  | cons c text inductionHypothesis =>
      rw [containsNestingFrom, nestingOffsetsFrom, inductionHypothesis]
      split
      · rename_i nests
        rw [nests]
        rfl
      · rename_i other
        rw [Bool.eq_false_iff.2 other]
        rfl

/-- Replacing is copying what stands between the offsets; `pending` has been scanned but not yet
copied. -/
theorem fillFrom_nestingOffsetsFrom (replacement front pending : List Char) (scanner : Scanner)
    (text : List Char) :
    fillFrom (front ++ (pending ++ text)) replacement (byteCount front)
        (nestingOffsetsFrom scanner (byteCount front + byteCount pending) text) =
      pending ++ replaceNestingFrom replacement scanner text := by
  induction text generalizing scanner front pending with
  | nil =>
      rw [nestingOffsetsFrom, fillFrom, dropBytes_byteCount_append]
      rfl
  | cons c text inductionHypothesis =>
      rw [nestingOffsetsFrom, replaceNestingFrom]
      split
      · rename_i nests
        obtain rfl : c = '&' := of_decide_eq_true (Bool.and_eq_true_iff.1 nests).2
        have later := inductionHypothesis (front ++ (pending ++ ['&'])) []
          (scanner.step .square '&')
        simp only [byteCount_append, byteCount_cons, byteCount_nil, List.append_assoc,
          List.singleton_append, List.nil_append, Nat.add_zero] at later
        rw [List.singleton_append, fillFrom, slice_part, Nat.add_assoc]
        exact congrArg (fun rest => pending ++ (replacement ++ rest)) later
      · have later := inductionHypothesis front (pending ++ [c]) (scanner.step .square c)
        simp only [byteCount_append, byteCount_cons, byteCount_nil, List.append_assoc,
          List.singleton_append, Nat.add_zero] at later
        rw [List.nil_append, Nat.add_assoc]
        exact later

/-! ## Replacing in a replaced text -/

/-- Where a nesting selector counts nothing is open, in front of it or behind it. -/
private theorem eq_start_of_nests {scanner : Scanner} {c : Char}
    (nests : (scanner.isIdle && c = '&') = true) :
    c = '&' ∧ scanner = .start ∧ scanner.step .square c = .start := by
  obtain ⟨idle, sign⟩ := Bool.and_eq_true_iff.1 nests
  obtain rfl : scanner = .start := eq_of_beq idle
  obtain rfl : c = '&' := of_decide_eq_true sign
  exact ⟨rfl, rfl, rfl⟩

theorem replaceNestingFrom_ampersand (scanner : Scanner) (text : List Char) :
    replaceNestingFrom ['&'] scanner text = text := by
  induction text generalizing scanner with
  | nil => rfl
  | cons c text inductionHypothesis =>
      rw [replaceNestingFrom, inductionHypothesis]
      split
      · rename_i nests
        rw [(eq_start_of_nests nests).1]
        rfl
      · rfl

section Delimited

variable {inner : List Char} (delimited : IsDelimited inner)

include delimited

theorem replaceNestingFrom_replaceNestingFrom (outer : List Char) (scanner : Scanner)
    (text : List Char) :
    replaceNestingFrom outer scanner (replaceNestingFrom inner scanner text) =
      replaceNestingFrom (replaceNesting inner outer) scanner text := by
  induction text generalizing scanner with
  | nil => rfl
  | cons c text inductionHypothesis =>
      rw [replaceNestingFrom, replaceNestingFrom]
      split
      · rename_i nests
        obtain ⟨-, rfl, behind⟩ := eq_start_of_nests nests
        rw [replaceNestingFrom_append, delimited, behind, inductionHypothesis, replaceNesting]
      · rename_i other
        rw [replaceNestingFrom, if_neg other, inductionHypothesis]

/-- Every copy brings its own nesting selectors with it. -/
theorem length_nestingOffsetsFrom_replace (scanner : Scanner) (text : List Char) :
    (nestingOffsetsFrom scanner 0 (replaceNestingFrom inner scanner text)).length =
      (nestingOffsetsFrom scanner 0 text).length * (nestingOffsets inner).length := by
  induction text generalizing scanner with
  | nil => exact (Nat.zero_mul _).symm
  | cons c text inductionHypothesis =>
      rw [replaceNestingFrom, nestingOffsetsFrom]
      split
      · rename_i nests
        obtain ⟨-, rfl, behind⟩ := eq_start_of_nests nests
        have copied : (nestingOffsetsFrom .start 0
            (inner ++ replaceNestingFrom inner .start text)).length =
              (nestingOffsets inner).length +
                (nestingOffsetsFrom .start 0 (replaceNestingFrom inner .start text)).length := by
          rw [nestingOffsetsFrom_append, delimited, List.length_append,
            length_nestingOffsetsFrom _ (0 + byteCount inner), nestingOffsets]
        rw [behind, copied, inductionHypothesis, List.length_append,
          length_nestingOffsetsFrom _ (0 + c.utf8Size), List.length_singleton, Nat.add_mul,
          Nat.one_mul]
      · rename_i other
        rw [nestingOffsetsFrom, if_neg other, List.nil_append, List.nil_append,
          length_nestingOffsetsFrom, inductionHypothesis,
          length_nestingOffsetsFrom _ (0 + c.utf8Size)]

end Delimited

/-- Replacing nesting selectors is an associative action of the texts that leave nothing open: it
may be done from the inside or from the outside, the numbers of nesting selectors multiply, and `&`
puts everything back.  What is replaced are the bytes at the offsets, and nothing where there are
none. -/
theorem replaceNesting_replaceNesting (selector inner outer : List Char) :
    (IsDelimited inner →
      replaceNesting (replaceNesting selector inner) outer =
          replaceNesting selector (replaceNesting inner outer) ∧
        (nestingOffsets (replaceNesting selector inner)).length =
          (nestingOffsets selector).length * (nestingOffsets inner).length) ∧
      replaceNesting selector ['&'] = selector ∧
      (containsNesting selector = false →
        ∀ replacement, replaceNesting selector replacement = selector) ∧
      containsNesting selector = !(nestingOffsets selector).isEmpty ∧
      ∀ replacement, replaceNesting selector replacement =
        fillFrom selector replacement 0 (nestingOffsets selector) := by
  refine ⟨fun delimited => ⟨?_, ?_⟩, replaceNestingFrom_ampersand _ _,
    fun absent replacement => replaceNestingFrom_eq_self replacement absent,
    containsNestingFrom_eq _ _ _, fun replacement => ?_⟩
  · exact replaceNestingFrom_replaceNestingFrom delimited outer _ _
  · exact length_nestingOffsetsFrom_replace delimited _ _
  · exact (fillFrom_nestingOffsetsFrom replacement [] [] _ selector).symm

/-- The `&` in a string, behind a backslash and in an attribute test are no nesting selectors, in
the selector and in what takes their place. -/
theorem replaceNesting_replaceNesting_strings :
    IsDelimited "& \\& &[b='&']".toList ∧
      replaceNesting (replaceNesting "a \"&\" & > &".toList "& \\& &[b='&']".toList) ".é".toList =
        replaceNesting "a \"&\" & > &".toList ".é \\& .é[b='&']".toList ∧
      (nestingOffsets
        (replaceNesting "a \"&\" & > &".toList "& \\& &[b='&']".toList)).length = 2 * 2 ∧
      replaceNesting "a\\& \"&\" [&]".toList ".é".toList = "a\\& \"&\" [&]".toList := by
  have delimited : IsDelimited "& \\& &[b='&']".toList := by decide
  have laws := replaceNesting_replaceNesting "a \"&\" & > &".toList "& \\& &[b='&']".toList
    ".é".toList
  have absent : containsNesting "a\\& \"&\" [&]".toList = false := by decide
  have inner : replaceNesting "& \\& &[b='&']".toList ".é".toList = ".é \\& .é[b='&']".toList := by
    decide
  refine ⟨delimited, ?_, (laws.1 delimited).2.trans (by decide), ?_⟩
  · rw [(laws.1 delimited).1, inner]
  · exact (replaceNesting_replaceNesting "a\\& \"&\" [&]".toList [] []).2.2.1 absent ".é".toList

end CssLint.Selector
