import CssLint.Proofs.Rule.Fragments
import CssLint.Proofs.Selector.ChangeEntries
import CssLint.Proofs.Selector.ChangeStandard
import CssLint.Proofs.Token.CommentRead

/-!
# Selectors with a comment at their end

The grammar passes over a comment whatever stands in it.  The splitter of lists, the search
for nesting selectors and the filters for other languages read it like any text, so for
them a comment is inert only where it holds none of the characters and words that they
look for.
-/

namespace CssLint.Selector

open Text
open Written (contains_iff_isInfix)

/-! ## Words around a text -/

/-- A word that is found in a text, but has none of the characters around a part, is found in
that part. -/
private theorem infix_of_infix_append {word front text back : List Char} (some : word ≠ [])
    (free : ∀ c ∈ word, c ∉ front ∧ c ∉ back) (found : word <:+: front ++ (text ++ back)) :
    word <:+: text := by
  obtain ⟨left, right, joined⟩ := found
  rw [List.append_assoc] at joined
  obtain ⟨ahead, behind⟩ : ∃ ahead, ahead ++ (word ++ right) = text ++ back := by
    rcases List.append_eq_append_iff.1 joined with ⟨gap, rfl, same⟩ | ⟨gap, rfl, same⟩
    · cases gap with
      | nil => exact ⟨[], same⟩
      | cons c gap =>
          obtain ⟨d, word, rfl⟩ := List.exists_cons_of_ne_nil some
          obtain ⟨rfl, -⟩ := List.cons.inj same
          exact absurd (by simp) (free d List.mem_cons_self).1
    · exact ⟨gap, same.symm⟩
  rw [← List.append_assoc] at behind
  rcases List.append_eq_append_iff.1 behind with ⟨gap, rfl, -⟩ | ⟨gap, same, rfl⟩
  · exact ⟨ahead, gap, rfl⟩
  · rcases List.eq_nil_or_concat gap with rfl | ⟨early, c, rfl⟩
    · exact ⟨ahead, [], by simpa using same⟩
    · obtain ⟨word, d, rfl⟩ := (List.eq_nil_or_concat word).resolve_left some
      simp only [List.concat_eq_append] at same free
      rw [← List.append_assoc, ← List.append_assoc] at same
      obtain ⟨-, last⟩ := List.append_inj' same rfl
      obtain rfl := List.singleton_inj.1 last
      exact absurd (by simp) (free d (by simp)).2

/-- Characters that a word does not have do not make it up. -/
theorem contains_between {word front text back : List Char} (some : word ≠ [])
    (free : ∀ c ∈ word, c ∉ front ∧ c ∉ back) (absent : contains word text = false) :
    contains word (front ++ (text ++ back)) = false := by
  rw [← Bool.not_eq_true, contains_iff_isInfix] at absent ⊢
  exact fun found => absent (infix_of_infix_append some free found)

/-! ## Comments -/

/-- The change that adds a space and a comment. -/
def Change.commenting (body : List Char) : Change :=
  .adding (' ' :: comment body) (stops_space _)

theorem Change.apply_commenting (body text : List Char) :
    (Change.commenting body).apply text = text ++ ' ' :: comment body :=
  Change.apply_adding _ text

theorem Change.expand_commenting (body : List Char) :
    (Change.commenting body).expand = id :=
  funext fun text => Change.expand_eq_self _ rfl text

/-- The body of a comment in which no reader of a text finds anything: it does not end the comment,
divides no list, names no rule around, and ends or begins no word of another language. -/
structure InertBody (body : List Char) : Prop where
  closed : contains ['*', '/'] body = false
  comma : ',' ∉ body
  nesting : '&' ∉ body
  parenthesis : ')' ∉ body
  brace : '\x7d' ∉ body
  extend : contains ":extend".toList body = false
  opens : contains ['<', '%'] body = false
  closes : contains ['%', '>'] body = false

instance (body : List Char) : Decidable (InertBody body) :=
  decidable_of_iff (contains ['*', '/'] body = false ∧ ',' ∉ body ∧ '&' ∉ body ∧ ')' ∉ body ∧
      '\x7d' ∉ body ∧ contains ":extend".toList body = false ∧ contains ['<', '%'] body = false ∧
      contains ['%', '>'] body = false)
    ⟨fun ⟨closed, comma, nesting, parenthesis, brace, extend, opens, closes⟩ =>
      ⟨closed, comma, nesting, parenthesis, brace, extend, opens, closes⟩,
    fun ⟨closed, comma, nesting, parenthesis, brace, extend, opens, closes⟩ =>
      ⟨closed, comma, nesting, parenthesis, brace, extend, opens, closes⟩⟩

/-- A character of the text ends a string or closes a bracket. -/
def holdsCloser (text : List Char) : Bool :=
  text.any fun c => ['"', '\'', ')', ']'].contains c

section Comment

variable {body : List Char}

theorem mem_commenting {c : Char} (notMark : c ∉ [' ', '/', '*']) (absent : c ∉ body) :
    c ∉ (Change.commenting body).tail := by
  simp only [List.mem_cons, List.not_mem_nil, or_false, not_or] at notMark
  simp [Change.commenting, Change.adding, comment, absent, notMark]

theorem bareEnd_commenting (body : List Char) : BareEnd (Change.commenting body).tail :=
  ⟨' ' :: '/' :: '*' :: (body ++ ['*']), '/', by simp [Change.commenting, Change.adding, comment],
    by decide⟩

theorem InertBody.inert (inert : InertBody body) : (Change.commenting body).Inert := by
  have words : ∀ {word : List Char}, word ≠ [] → (∀ c ∈ word, c ∉ [' ', '/', '*']) →
      contains word body = false → contains word (Change.commenting body).tail = false := by
    intro word some free absent
    have split : (Change.commenting body).tail = [' ', '/', '*'] ++ (body ++ ['*', '/']) := rfl
    rw [split]
    refine contains_between some (fun c member => ⟨free c member, fun found => ?_⟩) absent
    exact free c member (List.mem_cons_of_mem _ (by simpa [or_comm] using found))
  exact {
    percent := by simp [Change.commenting, Change.adding, comment, trimStart, isSpace]
    parenthesis := mem_commenting (by decide) inert.parenthesis
    brace := mem_commenting (by decide) inert.brace
    extend := words (by decide) (by simp) inert.extend
    opens := words (by decide) (by simp) inert.opens
    closes := words (by decide) (by simp) inert.closes }

/-- The grammar passes over the comment. -/
theorem readItems_commenting (closed : contains ['*', '/'] body = false)
    (inner : Option ListReader) (nested : Bool) (last : Last) (spaced : Bool) :
    readItems inner nested last spaced (Change.commenting body).tail =
      (endEntry last []).prepend [Node.leaf .comment (comment body)] := by
  have ends : commentEnd? '/' ('*' :: (body ++ ['*', '/'])) = some (some []) := by
    simp [commentEnd?, after?, behind?_comment closed]
  have behind : readItems inner nested last true [] = endEntry last [] := by
    rw [readItems]
  change readItems inner nested last spaced (' ' :: '/' :: '*' :: (body ++ ['*', '/'])) = _
  have whole : before (comment body) [] = comment body := by
    simp [before]
  rw [readItems_cons, if_neg (by simp), if_pos (by decide), readItems_cons, if_neg (by simp),
    if_neg (by decide), ends]
  change (readItems inner nested last true []).prepend
    [Node.leaf .comment (before (comment body) [])] = _
  rw [behind, whole]

theorem extends_commenting (closed : contains ['*', '/'] body = false) :
    Rule.Extends (.commenting body) := by
  intro spaced
  refine ⟨[Node.leaf .comment (comment body)], ?_, fun node member => ?_⟩
  · rw [readItems_commenting closed]
    rfl
  · rw [List.mem_singleton.1 member]
    rfl

theorem quiet_commenting (closed : contains ['*', '/'] body = false)
    (silent : holdsCloser body = false) : (Change.commenting body).Quiet where
  silent c member := by
    have marks : ∀ c ∈ ['"', '\'', ')', ']'], c ∉ [' ', '/', '*'] := by simp
    refine mem_commenting (marks c member) fun found => ?_
    exact List.any_eq_false.1 silent c found (List.contains_iff_mem.2 member)
  ends inner nested last spaced :=
    ⟨[Node.leaf .comment (comment body)], readItems_commenting closed inner nested last spaced⟩

/-- A comment at the end makes no difference for the filter for rules, unless a colon stands
there. -/
theorem isStandardRule_commenting (inert : InertBody body) {text : List Char}
    (bareEnd : BareEnd text) (colon : text.getLast? ≠ some ':') :
    isStandardRule ((Change.commenting body).apply text) = isStandardRule text := by
  have bare : BareEnd ((Change.commenting body).apply text) :=
    (bareEnd_commenting body).append _
  have last : ((Change.commenting body).apply text).getLast? = some '/' := by
    have split : (Change.commenting body).apply text =
        (text ++ ' ' :: '/' :: '*' :: (body ++ ['*'])) ++ ['/'] := by
      rw [Change.apply_commenting]
      simp [comment]
    rw [split, List.getLast?_concat]
  rw [isStandardRule, isStandardRule, trimEnd_eq_self bare, trimEnd_eq_self bareEnd, last,
    hasExtend_apply inert.inert, bne_iff_ne.2 colon]
  rfl

end Comment

end CssLint.Selector
