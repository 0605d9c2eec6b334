import CssLint.Proofs.Token.Suffix
import CssLint.Selector.Reader

/-!
# What readers of selectors leave

What the readers of names, strings, brackets, comments and combinators leave is an
end of the text that they were given.
-/

namespace CssLint.Selector

open Text CssLint.Name

/-! ## Names -/

namespace Name

theorem suffix_dropEscape (text : List Char) : dropEscape text <:+ text := by
  cases text with
  | nil => exact List.suffix_refl _
  | cons c text =>
      have ofDigits : (takeAtMost isHexDigit 6 (c :: text)).2 <:+ c :: text :=
        ⟨_, takeAtMost_append isHexDigit 6 (c :: text)⟩
      rw [dropEscape]
      split
      · exact (suffix_dropBlank _).trans ofDigits
      · exact List.suffix_cons c text

theorem suffix_drop (text : List Char) : drop text <:+ text := by
  fun_induction drop text with
  | case1 => exact List.suffix_refl _
  | case2 c text _ inductionHypothesis => exact inductionHypothesis.trans (List.suffix_cons c text)
  | case3 c text _ _ inductionHypothesis =>
      exact (inductionHypothesis.trans (suffix_dropEscape text)).trans (List.suffix_cons c text)
  | case4 => exact List.suffix_refl _

end Name

/-! ## Closing ends -/

theorem suffix_of_stringEnd? {quote : Char} {text rest : List Char}
    (closed : stringEnd? quote text = some rest) : rest <:+ text := by
  fun_induction stringEnd? quote text with
  | case1 => cases closed
  | case2 => cases closed
  | case3 c text inductionHypothesis =>
      exact ((inductionHypothesis closed).trans (List.suffix_cons c text)).trans
        (List.suffix_cons _ _)
  | case4 c text =>
      cases closed
      exact List.suffix_cons _ _
  | case5 c text _ _ _ inductionHypothesis =>
      exact (inductionHypothesis closed).trans (List.suffix_cons c text)

theorem suffix_of_attributeEnd {start text rest : List Char}
    (closed : attributeEnd start text = .ok rest) : rest <:+ text := by
  fun_induction attributeEnd start text with
  | case1 => cases closed
  | case2 text =>
      cases closed
      exact List.suffix_cons _ _
  | case3 => cases closed
  | case4 c text _ _ inner found inductionHypothesis =>
      exact ((inductionHypothesis closed).trans (suffix_of_stringEnd? found)).trans
        (List.suffix_cons c text)
  | case5 text _ _ inductionHypothesis =>
      exact ((inductionHypothesis closed).trans (List.drop_suffix 1 text)).trans
        (List.suffix_cons _ text)
  | case6 c text _ _ _ inductionHypothesis =>
      exact (inductionHypothesis closed).trans (List.suffix_cons c text)

theorem suffix_of_parenthesisEnd {start text rest : List Char} {depth : Nat}
    (closed : parenthesisEnd start depth text = .ok rest) : rest <:+ text := by
  fun_induction parenthesisEnd start depth text with
  | case1 => cases closed
  | case2 => cases closed
  | case3 depth c text _ inner found inductionHypothesis =>
      exact ((inductionHypothesis closed).trans (suffix_of_stringEnd? found)).trans
        (List.suffix_cons c text)
  | case4 depth text _ inductionHypothesis =>
      exact (inductionHypothesis closed).trans (List.suffix_cons _ text)
  | case5 =>
      cases closed
      exact List.suffix_cons _ _
  | case6 text _ _ depth inductionHypothesis =>
      exact (inductionHypothesis closed).trans (List.suffix_cons _ text)
  | case7 depth text _ _ _ inductionHypothesis =>
      exact ((inductionHypothesis closed).trans (List.drop_suffix 1 text)).trans
        (List.suffix_cons _ text)
  | case8 depth c text _ _ _ _ inductionHypothesis =>
      exact (inductionHypothesis closed).trans (List.suffix_cons c text)

/-! ## Comments and combinators -/

theorem suffix_of_commentEnd? {c : Char} {text rest : List Char}
    (read : commentEnd? c text = some (some rest)) : rest <:+ c :: text := by
  rw [commentEnd?, Option.map_eq_some_iff] at read
  obtain ⟨inside, found, closed⟩ := read
  exact (suffix_of_behind? closed).trans (suffix_of_after? found)

/-- A combinator that is read is an explicit one and stands in front of what it leaves. -/
theorem eq_append_of_readCombinator? {c : Char} {text rest : List Char} {combinator : Combinator}
    (read : readCombinator? c text = some (combinator, rest)) :
    combinator ≠ .descendant ∧ c :: text = combinator.symbol ++ rest := by
  unfold readCombinator? at read
  split at read
  · cases read
  · rename_i sign same
    have explicit : sign ≠ .descendant ∧ c :: text = sign.symbol ++ text := by
      unfold Combinator.ofChar? at same
      split at same <;> cases same <;> exact ⟨by decide, rfl⟩
    split at read
    · rename_i greater
      split at read
      · rename_i found
        cases read
        rw [greater, eq_append_of_after? found]
        exact ⟨by decide, rfl⟩
      · cases read
        exact explicit
    · cases read
      exact explicit

end CssLint.Selector
