import CssLint.Proofs.Sheet.Braces
import CssLint.Proofs.Sheet.CommentPieces

/-!
# Rules around a comment

A comment behind the selector of a rule with an empty block becomes a part of that
selector.  All other rules and at-rules keep their texts, and nothing is inside the rule, so
the rules of the two sheets go with each other one by one.
-/

namespace CssLint.Sheet

open Text
open Selector (Change endsInEscape)

/-! ## Nodes -/

/-- The same node, up to where it stands. -/
inductive SameText : Kind → Kind → Prop
  | rule {style other : StyleRule} (selector : other.selector = style.selector) :
      SameText (.rule style) (.rule other)
  | atRule {header other : AtRule} (params : other.params = header.params) :
      SameText (.atRule header) (.atRule other)

/-- The same node, or the one style rule whose selector becomes another one. -/
inductive SameTextOr (rule : StyleRule) (selector : List Char) : Kind → Kind → Prop
  | same {kind other : Kind} (own : SameText kind other) : SameTextOr rule selector kind other
  | changed {other : StyleRule} (text : other.selector = selector) :
      SameTextOr rule selector (.rule rule) (.rule other)

theorem SameTextOr.cases_rule {rule style other : StyleRule} {selector : List Char}
    (own : SameTextOr rule selector (.rule style) (.rule other)) :
    other.selector = style.selector ∨ style = rule ∧ other.selector = selector := by
  cases own with
  | same own =>
      cases own with
      | rule same => exact Or.inl same
  | changed text => exact Or.inr ⟨rfl, text⟩

theorem HeadMatches.sameText {source other : List Char} {first first' brace brace' : Piece}
    {kind kind' : Kind} (own : HeadMatches source other first first' brace brace' kind kind')
    (prelude_ : slice other first'.span.start brace'.span.start =
      slice source first.span.start brace.span.start)
    (params : first.token ≠ .badString → first.span.stop ≤ brace.span.start →
      slice other first'.span.stop brace'.span.start =
        slice source first.span.stop brace.span.start) :
    SameBlock kind kind' ∧ SameText kind kind' := by
  cases own with
  | rule => exact ⟨.rule, .rule (by simp only [styleBetween, prelude_])⟩
  | atRule keyword ahead =>
      have same := params (by rw [keyword]; simp) ahead
      exact ⟨.atRule rfl, .atRule (by rw [textBetween, same, textBetween])⟩

/-! ## Places around a comment -/

section Slices

variable {text body tail : List Char} {start stop : Nat}

/-- In front of the comment stands what stands there without it. -/
theorem slice_stays (boundary : OnBoundary (text ++ ' ' :: tail) start) (ordered : start ≤ stop)
    (within : stop ≤ byteCount text) :
    slice (text ++ ' ' :: (comment body ++ ' ' :: tail)) start stop =
      slice (text ++ ' ' :: tail) start stop := by
  have own := boundary.front (Nat.le_trans ordered within)
  rw [slice_append own within, slice_append own within]

/-- Behind the comment stands what stands there without it. -/
theorem slice_moves (behind : byteCount text < start) (ordered : start ≤ stop) :
    slice (text ++ ' ' :: (comment body ++ ' ' :: tail))
        (byteCount (comment body) + 1 + start) (byteCount (comment body) + 1 + stop) =
      slice (text ++ ' ' :: tail) start stop := by
  obtain ⟨ahead, rfl⟩ := Nat.exists_eq_add_of_lt behind
  obtain ⟨width, rfl⟩ := Nat.exists_eq_add_of_le ordered
  have space : byteCount [' '] = 1 := rfl
  have shorter : byteCount (text ++ [' ']) = byteCount text + 1 := by
    rw [byteCount_append, space]
  have longer : byteCount (text ++ ([' '] ++ comment body ++ [' '])) =
      byteCount text + (byteCount (comment body) + 2) := by
    rw [byteCount_append, byteCount_append, byteCount_append, space]
    omega
  calc
    slice (text ++ ' ' :: (comment body ++ ' ' :: tail))
        (byteCount (comment body) + 1 + (byteCount text + ahead + 1))
        (byteCount (comment body) + 1 + (byteCount text + ahead + 1 + width)) =
      slice ((text ++ ([' '] ++ comment body ++ [' '])) ++ tail)
        (byteCount (text ++ ([' '] ++ comment body ++ [' '])) + ahead)
        (byteCount (text ++ ([' '] ++ comment body ++ [' '])) + (ahead + width)) := by
      rw [longer]
      congr 1
      · simp
      · omega
      · omega
    _ = slice tail ahead (ahead + width) := slice_byteCount_add _ _ _ _
    _ = slice ((text ++ [' ']) ++ tail) (byteCount (text ++ [' ']) + ahead)
        (byteCount (text ++ [' ']) + (ahead + width)) := (slice_byteCount_add _ _ _ _).symm
    _ = slice (text ++ ' ' :: tail) (byteCount text + ahead + 1)
        (byteCount text + ahead + 1 + width) := by
      rw [shorter]
      congr 1
      · simp
      · omega
      · omega

end Slices

/-! ## Forests -/

/-- Whatever block begins at the place is closed at once. -/
def ClosesAtOnce (source : List Char) (place : Nat) : Prop :=
  ∀ (brace : Piece) (rest : List Piece), brace :: rest <:+ Piece.ofText source →
    brace.span.start = place → HeadIs Piece.closesBlock rest

/-- The forest stands in front of a place, behind it, or around the style rule. -/
def StandsClear (size : Nat) (rule : StyleRule) (start stop : Nat) (items : List Item) : Prop :=
  stop ≤ size ∨ size < start ∨ HoldsRule rule items

section Forests

variable {front selector tail : List Char} {levels start stop : Nat} {items items' : List Item}

/-- With a comment behind the selector the rule keeps its place and gets the comment. -/
theorem HeadMatches.commented {body : List Char} {first first' brace brace' : Piece}
    {rest : List Piece} {kind : Kind} (bareStart : BareStart selector)
    (begins : Passes (byteCount (front ++ selector)) (byteCount (comment body) + 1)
      first.span.start first'.span.start)
    (opens : Passes (byteCount (front ++ selector)) (byteCount (comment body) + 1)
      brace.span.start brace'.span.start)
    (own : HeadMatches (front ++ selector ++ ' ' :: '\x7b' :: tail)
      (front ++ selector ++ ' ' :: (comment body ++ ' ' :: '\x7b' :: tail)) first first' brace
      brace' (.rule ⟨selector, byteCount front⟩) kind)
    (known : first ∈ Piece.ofText (front ++ selector ++ ' ' :: '\x7b' :: tail))
    (followed : brace :: rest <:+ Piece.ofText (front ++ selector ++ ' ' :: '\x7b' :: tail))
    (curly : brace.token = .opening .curly) :
    ∃ style, kind = .rule style ∧ style.selector = selector ++ ' ' :: comment body := by
  obtain ⟨place, left, early, rfl, start, spaces⟩ := own.brace_start known followed curly
  generalize written : Kind.rule ⟨selector, byteCount (left ++ early)⟩ = rule at own
  cases own with
  | atRule => cases written
  | rule =>
      refine ⟨_, rfl, ?_⟩
      have stays : first'.span.start = byteCount left := by
        rw [byteCount_append, byteCount_append] at begins
        unfold Passes at begins
        omega
      have moves : brace'.span.start =
          byteCount left + byteCount (early ++ (selector ++ ' ' :: comment body) ++ [' ']) := by
        have space : byteCount [' '] = 1 := rfl
        have spaced : byteCount (' ' :: comment body) = 1 + byteCount (comment body) :=
          byteCount_append [' '] (comment body)
        simp only [byteCount_append, spaced, space] at opens place ⊢
        unfold Passes at opens
        omega
      have whole : left ++ early ++ selector ++
          ' ' :: (comment body ++ ' ' :: '\x7b' :: tail) =
          left ++ ((early ++ (selector ++ ' ' :: comment body) ++ [' ']) ++ '\x7b' :: tail) := by
        simp
      have bareEnd : BareEnd (selector ++ ' ' :: comment body) :=
        ⟨selector ++ ' ' :: '/' :: '*' :: (body ++ ['*']), '/', by simp [comment], by decide⟩
      simp only [styleBetween]
      rw [stays, moves, whole, slice_part]
      exact trim_append_append spaces (by simp [isSpace]) (bareStart.append _) bareEnd

/-- In front of the comment and behind it, nodes keep their texts. -/
theorem HeadMatches.sameText_of_passes {text body rest : List Char}
    {first first' brace brace' : Piece} {kind kind' : Kind}
    (begins : Piece.Matches (Passes (byteCount text) (byteCount (comment body) + 1)) first first')
    (opens : Piece.Matches (Passes (byteCount text) (byteCount (comment body) + 1)) brace brace')
    (solid : first.token ≠ .whitespace) (curly : brace.token = .opening .curly)
    (own : HeadMatches (text ++ ' ' :: rest) (text ++ ' ' :: (comment body ++ ' ' :: rest)) first
      first' brace brace' kind kind')
    (known : first ∈ Piece.ofText (text ++ ' ' :: rest))
    (apart : brace.span.start ≤ byteCount text ∨ byteCount text < first.span.start) :
    SameBlock kind kind' ∧ SameText kind kind' := by
  have start := begins.start solid
  have brace_ := opens.start (by rw [curly]; simp)
  have ordered := own.start_le known
  have wide := Piece.start_lt_stop known
  have stands := stands_of_mem known
  unfold Passes at start brace_
  rcases apart with within | behind
  · have stays : first'.span.start = first.span.start ∧ brace'.span.start = brace.span.start := by
      omega
    refine own.sameText ?_ fun notBad ahead => ?_
    · rw [stays.1, stays.2]
      exact slice_stays stands.1 ordered within
    · have stop := begins.stop solid notBad
      unfold Passes at stop
      have own_ : first'.span.stop = first.span.stop := by omega
      rw [own_, stays.2]
      exact slice_stays stands.2 ahead within
  · have moves : first'.span.start = byteCount (comment body) + 1 + first.span.start ∧
        brace'.span.start = byteCount (comment body) + 1 + brace.span.start := by
      omega
    refine own.sameText ?_ fun notBad ahead => ?_
    · rw [moves.1, moves.2]
      exact slice_moves behind ordered
    · have stop := begins.stop solid notBad
      unfold Passes at stop
      have own_ : first'.span.stop = byteCount (comment body) + 1 + first.span.stop := by omega
      rw [own_, moves.2]
      exact slice_moves (Nat.lt_trans behind wide) ahead

/-- The forests of the two sheets, where the first stands in front of the comment, or behind it, or
around the rule. -/
theorem forestsAlike_comment {body : List Char} (bareStart : BareStart selector)
    (hollow : ClosesAtOnce (front ++ selector ++ ' ' :: '\x7b' :: tail)
      (byteCount (front ++ selector) + 1))
    (matches_ : ItemsMatch (Piece.Matches
        (Passes (byteCount (front ++ selector)) (byteCount (comment body) + 1)))
      (front ++ selector ++ ' ' :: '\x7b' :: tail)
      (front ++ selector ++ ' ' :: (comment body ++ ' ' :: '\x7b' :: tail)) items items')
    (laid : LaidOut (front ++ selector ++ ' ' :: '\x7b' :: tail) levels start stop items)
    (clear : StandsClear (byteCount (front ++ selector)) ⟨selector, byteCount front⟩ start stop
      items) :
    ForestsAlike (fun _ _ => True)
      (SameTextOr ⟨selector, byteCount front⟩ (selector ++ ' ' :: comment body)) SameText items
      items' := by
  induction matches_ generalizing levels start stop with
  | nil => exact .nil
  | line own _ inductionHypothesis =>
      cases laid with
      | cons placed after before _ laidLater =>
          have forward := placed.forward
          refine .line own (inductionHypothesis laidLater ?_)
          rcases clear with early | late | holds
          · exact Or.inl early
          · exact Or.inr (Or.inl (by omega))
          · rcases holds.cases with rfl | inside | later
            · cases own
            · exact absurd rfl inside.ne_nil
            · exact Or.inr (Or.inr later)
  | @block first first' brace brace' rest kind kind' stop_ stop' inside inside' items items' begins
      opens solid curly known own followed closes before behind below _ ofWithin ofLater =>
      cases laid with
      | cons placed after within laidInside laidLater =>
          have forward := placed.forward
          have wide := Piece.start_lt_stop (followed.subset List.mem_cons_self)
          simp only at after within forward
          -- A node in front of the comment or behind it keeps its text.
          have keeps : (brace.span.start ≤ byteCount (front ++ selector) ∨
                byteCount (front ++ selector) < first.span.start) →
              StandsClear (byteCount (front ++ selector)) ⟨selector, byteCount front⟩
                first.span.start stop_ inside →
              StandsClear (byteCount (front ++ selector)) ⟨selector, byteCount front⟩ stop_ stop
                items →
              ForestsAlike (fun _ _ => True)
                (SameTextOr ⟨selector, byteCount front⟩ (selector ++ ' ' :: comment body)) SameText
                (⟨kind, ⟨first.span.start, stop_⟩, inside⟩ :: items)
                (⟨kind', ⟨first'.span.start, stop'⟩, inside'⟩ :: items') := by
            intro apart clearInside clearLater
            obtain ⟨sameBlock, sameText⟩ :=
              own.sameText_of_passes begins opens solid curly known apart
            exact .block sameBlock (.same sameText) trivial (Or.inr sameText)
              (ofWithin laidInside clearInside) (ofLater laidLater clearLater)
          rcases clear with early | late | holds
          · exact keeps (Or.inl (by omega)) (Or.inl (by omega)) (Or.inl early)
          · exact keeps (Or.inr (by omega)) (Or.inr (Or.inl (by omega)))
              (Or.inr (Or.inl (by omega)))
          · rcases holds.cases with rfl | holdsInside | holdsLater
            · -- The rule itself: its block is closed at once, so nothing is inside.
              obtain ⟨place, -⟩ := own.brace_start known followed curly
              obtain rfl : inside = [] := closes (hollow _ _ followed place)
              obtain ⟨style, rfl, commented⟩ := own.commented bareStart (begins.start solid)
                (opens.start (by rw [curly]; simp)) known followed curly
              have late : byteCount (front ++ selector) < stop_ := by omega
              cases below
              exact .block .rule (.changed commented) trivial (Or.inl rfl) .nil
                (ofLater laidLater (Or.inr (Or.inl late)))
            · have offset := (laidInside.start_from behind).start_le_offset holdsInside
              have behind_ := below.lt_stop laidInside holdsInside
              rw [byteCount_append] at behind_
              simp only at offset behind_
              exact keeps (Or.inl (by rw [byteCount_append]; omega)) (Or.inr (Or.inr holdsInside))
                (Or.inr (Or.inl (by rw [byteCount_append]; omega)))
            · have offset := laidLater.start_le_offset holdsLater
              simp only at offset
              exact keeps (Or.inl (by rw [byteCount_append]; omega))
                (Or.inl (by rw [byteCount_append]; omega)) (Or.inr (Or.inr holdsLater))

end Forests

/-! ## Rules -/

section Rules

variable {front selector tail : List Char}

theorem endsBare_append {text : List Char} (bare : BareEnd text) (front : List Char) :
    Lexeme.EndsBare (front ++ text) := by
  obtain ⟨more, c, rfl, notSpace⟩ := bare
  intro last member
  rw [← List.append_assoc, List.getLast?_concat] at member
  cases member
  exact not_isBlank_of_not_isSpace notSpace

/-- Nothing goes on over the space behind the selector of a rule. -/
theorem lexes_of_holdsRule
    (holds : HoldsRule ⟨selector, byteCount front⟩
      (contents (front ++ selector ++ ' ' :: '\x7b' :: tail)).items)
    (settled : endsInEscape (front ++ selector) = false) (some : selector ≠ []) :
    ∀ change, Lexeme.Lexes change (front ++ selector) := by
  rcases Lexeme.lexes_or_takesBrace (front ++ selector) with all | ⟨-, takes⟩
  · exact all
  · obtain ⟨first, _, brace, _, _, _, known, followed, curly, own⟩ := exists_head_of_holdsRule holds
    obtain ⟨place, -⟩ := own.brace_start known followed curly
    obtain ⟨lexeme, member, -, span⟩ := Piece.exists_lexeme (followed.subset List.mem_cons_self)
    have stops := Selector.stops_space ('\x7b' :: tail)
    have applied := Change.apply_adding stops (front ++ selector)
    have apart := takes (.adding _ stops) rfl ⟨Or.inr settled, Or.inl rfl⟩
      (endsBare_append (holds.bare some).2 front) tail rfl 0 lexeme (applied.symm ▸ member)
    refine absurd ?_ apart
    rw [applied, span, place, byteCount_append (front ++ selector), Nat.zero_add]
    have space : byteCount (' ' :: '\x7b' :: tail) = 1 + byteCount ('\x7b' :: tail) :=
      byteCount_append [' '] _
    omega

theorem closesAtOnce_emptyBlock {text : List Char}
    (lexes : ∀ change, Lexeme.Lexes change text) (settled : endsInEscape text = false)
    (bare : Lexeme.EndsBare text) (tail : List Char) :
    ClosesAtOnce (text ++ ' ' :: '\x7b' :: '\x7d' :: tail) (byteCount text + 1) := by
  obtain ⟨ahead, more, pieces⟩ := ofText_emptyBlock lexes settled bare tail
  intro brace rest followed place closer head
  obtain rfl := eq_of_suffix_of_start followed ⟨ahead, pieces.symm⟩ place
  cases head
  rfl

/-- The rules of a sheet go one by one with those of the sheet with a comment behind a selector. -/
theorem occurrences_comment {body : List Char} (closed : contains ['*', '/'] body = false)
    (holds : HoldsRule ⟨selector, byteCount front⟩
      (contents (front ++ selector ++ ' ' :: '\x7b' :: '\x7d' :: tail)).items)
    (settled : endsInEscape (front ++ selector) = false) (some : selector ≠ []) :
    List.Forall₂ (OccurrencesAlike (fun _ _ => True)
        (SameTextOr ⟨selector, byteCount front⟩ (selector ++ ' ' :: comment body)) SameText)
      (occurrencesIn [] (contents (front ++ selector ++ ' ' :: '\x7b' :: '\x7d' :: tail)).items)
      (occurrencesIn [] (contents (front ++ selector ++
        ' ' :: (comment body ++ ' ' :: '\x7b' :: '\x7d' :: tail))).items) := by
  obtain ⟨bareStart, bareEnd⟩ := holds.bare some
  have lexes := lexes_of_holdsRule holds settled some
  have bare := endsBare_append bareEnd front
  have ends : EndsBlanks ('\x7b' :: '\x7d' :: tail) := endsBlanks_cons rfl _
  exact (forestsAlike_comment bareStart (closesAtOnce_emptyBlock lexes settled bare tail)
    (contents_matching Piece.likens_matches (matching_comment lexes settled bare closed ends))
    (laidOut_contents _) (Or.inr (Or.inr holds))).occurrences .nil

end Rules

end CssLint.Sheet
