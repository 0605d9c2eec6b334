import CssLint.Proofs.Sheet.PlainChains

/-!
# Plain style sheets

Chains of plain rules one behind the other, with blank characters behind the last.
The rules of the style sheet are those of the chains in the order of the text.
-/

namespace CssLint.Sheet

open Selector.Written Text

/-- Chains of rules one behind the other. -/
def sheetText (chains : List (List PlainRule)) (last : Blanks) : List Char :=
  chains.flatMap chainText ++ last.text

/-- The rules of the chains with their places, where `offset` is that of the first byte. -/
def sheetOccurrences (offset : Nat) : List (List PlainRule) → List Occurrence
  | [] => []
  | chain :: chains =>
    chainOccurrences [] offset chain ++
      sheetOccurrences (offset + byteCount (chainText chain)) chains

private theorem noDigit_sheetText (chains : List (List PlainRule)) (last : Blanks) :
    NoDigit (sheetText chains last) := by
  apply NoDigit.append _ (noDigit_blanks last)
  intro c member
  obtain ⟨chain, _, inside⟩ := List.mem_flatMap.1 member
  exact noDigit_chainText chain c inside

private theorem reads_sheetText (chains : List (List PlainRule)) (last : Blanks) :
    Reads Token.isTame (sheetText chains last) [] := by
  apply Reads.append
  · induction chains with
    | nil => exact .nil _
    | cons chain chains inductionHypothesis =>
        exact .append (reads_chainText chain _) inductionHypothesis
  · exact reads_blanks last endsBlanks_nil

private theorem readItems_sheet (chains : List (List PlainRule))
    (within : ∀ chain ∈ chains, chain.length ≤ maxNesting + 1) (last : Blanks)
    {source front : List Char} (written : source = front ++ sheetText chains last) :
    occurrencesIn [] (readItems (blockReader source maxNesting) source false
        (piecesAt (byteCount front) (sheetText chains last))).items =
      sheetOccurrences (byteCount front) chains := by
  induction chains generalizing front with
  | nil =>
      have blanks := @readItems_blanks (blockReader source maxNesting) source last false []
        endsBlanks_nil (byteCount front)
      rw [List.append_nil, piecesAt_nil, readItems] at blanks
      exact congrArg (fun contents : Contents => occurrencesIn [] contents.items) blanks
  | cons chain chains inductionHypothesis =>
      have text : sheetText (chain :: chains) last = chainText chain ++ sheetText chains last :=
        List.append_assoc ..
      obtain ⟨items, notices, first, read⟩ := readsChain source chain
        (within chain List.mem_cons_self) front _ (noDigit_sheetText chains last)
        (written.trans (congrArg (front ++ ·) text)) false
      have later := inductionHypothesis
        (fun other member => within other (List.mem_cons_of_mem chain member))
        (written.trans ((congrArg (front ++ ·) text).trans (List.append_assoc ..).symm))
      rw [byteCount_append] at later
      rw [text, read, sheetOccurrences, ← first.occurrences, ← later, ← occurrencesIn_append]
      rfl

/-- The rules of a style sheet are those of its chains. -/
theorem occurrences_sheetText (chains : List (List PlainRule))
    (within : ∀ chain ∈ chains, chain.length ≤ maxNesting + 1) (last : Blanks) :
    occurrencesIn [] (contents (sheetText chains last)).items = sheetOccurrences 0 chains := by
  rw [contents, ofText_eq_piecesAt (reads_sheetText chains last) (noDigit_sheetText chains last)]
  exact readItems_sheet chains within last (List.nil_append _).symm

end CssLint.Sheet
