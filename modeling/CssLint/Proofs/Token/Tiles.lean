import CssLint.Proofs.Token.Lexemes

/-!
# Lexemes tile their text

Whatever the text, its lexemes stand one behind the other on its characters, and
nothing but comments stands in front of, between and behind them.  Only the comment
behind the last of them may lack its end.
-/

namespace CssLint

open Text

/-! ## Comments -/

/-- The text is one comment with its end: the first `*/` behind its beginning stands at its
end. -/
def IsComment (text : List Char) : Prop :=
  ∃ inside, text = '/' :: '*' :: (inside ++ ['*', '/']) ∧ ¬ ['*', '/'] <:+: inside ++ ['*']

/-- The text begins a comment and does not end it. -/
def IsOpenComment (text : List Char) : Prop :=
  ∃ inside, text = '/' :: '*' :: inside ∧ ¬ ['*', '/'] <:+: inside

/-- Comments one behind the other, or nothing. -/
def AreComments (text : List Char) : Prop :=
  ∃ comments : List (List Char),
    (∀ comment ∈ comments, IsComment comment) ∧ text = comments.flatten

/-- Comments one behind the other, the last of which may lack its end. -/
def AreLastComments (text : List Char) : Prop :=
  ∃ closed last, text = closed ++ last ∧ AreComments closed ∧ (last = [] ∨ IsOpenComment last)

theorem areComments_nil : AreComments [] :=
  ⟨[], by simp, rfl⟩

theorem IsComment.append {first later : List Char} (isComment : IsComment first)
    (areComments : AreComments later) : AreComments (first ++ later) := by
  obtain ⟨comments, each, rfl⟩ := areComments
  refine ⟨first :: comments, ?_, rfl⟩
  intro comment member
  rcases List.mem_cons.1 member with rfl | below
  · exact isComment
  · exact each comment below

theorem AreComments.last {text : List Char} (areComments : AreComments text) :
    AreLastComments text :=
  ⟨text, [], (List.append_nil text).symm, areComments, .inl rfl⟩

theorem IsOpenComment.last {text : List Char} (isOpen : IsOpenComment text) :
    AreLastComments text :=
  ⟨[], text, rfl, areComments_nil, .inr isOpen⟩

theorem IsComment.appendLast {first later : List Char} (isComment : IsComment first)
    (areComments : AreLastComments later) : AreLastComments (first ++ later) := by
  obtain ⟨closed, last, rfl, areClosed, ends⟩ := areComments
  exact ⟨first ++ closed, last, (List.append_assoc _ _ _).symm, isComment.append areClosed, ends⟩

namespace Text

theorem after?_append (word rest : List Char) : after? word (word ++ rest) = some rest := by
  induction word with
  | nil => rfl
  | cons c word inductionHypothesis => simpa [after?] using inductionHypothesis

/-- What cannot be found anywhere does not occur. -/
theorem not_infix_of_behind?_eq_none {word text : List Char} (missing : behind? word text = none) :
    ¬ word <:+: text := by
  induction text with
  | nil =>
      rintro occurs
      rw [List.infix_nil.1 occurs] at missing
      cases missing
  | cons c text inductionHypothesis =>
      rw [behind?, Option.or_eq_none_iff] at missing
      rintro occurs
      rcases List.infix_cons_iff.1 occurs with ⟨rest, here⟩ | later
      · rw [← here, after?_append] at missing
        cases missing.1
      · exact inductionHypothesis missing.2 later

/-- What is found stands there, and nowhere before. -/
theorem exists_of_behind?_eq_some {word text rest : List Char} {last : Char}
    (found : behind? (word ++ [last]) text = some rest) :
    ∃ inside, text = inside ++ (word ++ [last]) ++ rest ∧ ¬ word ++ [last] <:+: inside ++ word := by
  induction text with
  | nil =>
      rw [behind?] at found
      have joined := congrArg List.length (eq_append_of_after? found)
      simp at joined
  | cons c text inductionHypothesis =>
      rw [behind?, Option.or_eq_some_iff] at found
      rcases found with here | ⟨notHere, later⟩
      · refine ⟨[], eq_append_of_after? here, fun occurs => ?_⟩
        have tooLong := occurs.length_le
        simp only [List.nil_append, List.length_append, List.length_singleton] at tooLong
        exact Nat.not_succ_le_self _ tooLong
      · obtain ⟨inside, rfl, first⟩ := inductionHypothesis later
        refine ⟨c :: inside, by simp, fun occurs => ?_⟩
        rcases List.infix_cons_iff.1 occurs with ⟨more, begins⟩ | below
        · have front : word ++ [last] <+: c :: (inside ++ (word ++ [last]) ++ rest) := by
            refine (show word ++ [last] <+: c :: (inside ++ word) from ⟨more, begins⟩).trans ?_
            exact ⟨last :: rest, by simp⟩
          obtain ⟨behind, same⟩ := front
          rw [← same, after?_append] at notHere
          cases notHere
        · exact first below

end Text

namespace Lexeme

/-- In front of what is left when comments are skipped stand comments; when nothing is left, the
last of them may lack its end. -/
theorem comments_of_skipComments (text : List Char) :
    (∃ gap, AreComments gap ∧ text = gap ++ skipComments text) ∨
      (skipComments text = [] ∧ AreLastComments text) := by
  fun_induction skipComments text with
  | case1 text notOpened => exact .inl ⟨[], areComments_nil, rfl⟩
  | case2 text inside opened inductionHypothesis =>
      have begins := eq_append_of_after? opened
      cases found : behind? ['*', '/'] inside with
      | none =>
          right
          have nothing : skipComment inside = [] := by rw [skipComment, found, Option.getD_none]
          refine ⟨by rw [nothing, skipComments]; rfl, ?_⟩
          rw [begins]
          exact IsOpenComment.last ⟨inside, rfl, not_infix_of_behind?_eq_none found⟩
      | some rest =>
          have left_ : skipComment inside = rest := by rw [skipComment, found, Option.getD_some]
          obtain ⟨body, rfl, first⟩ := @exists_of_behind?_eq_some ['*'] inside rest '/' found
          have isComment : IsComment ('/' :: '*' :: (body ++ ['*', '/'])) := ⟨body, rfl, first⟩
          have split : text = '/' :: '*' :: (body ++ ['*', '/']) ++ rest := by
            rw [begins]
            simp
          rw [left_] at inductionHypothesis ⊢
          rcases inductionHypothesis with ⟨gap, areComments, same⟩ | ⟨nothing, areComments⟩
          · refine .inl ⟨_, isComment.append areComments, ?_⟩
            rw [split, List.append_assoc, ← same]
          · refine .inr ⟨nothing, ?_⟩
            rw [split]
            exact isComment.appendLast areComments

end Lexeme

/-! ## Tiles -/

namespace Lexeme

/-- The lexemes and the comments around them make up a text whose first byte has the number
`place`, and the end of the input comes last. -/
inductive Tiled : Nat → List Char → List Lexeme → Prop
  | last {place : Nat} {gap : List Char} (areComments : AreLastComments gap) :
      Tiled place gap [⟨.endOfInput, ⟨place + byteCount gap, place + byteCount gap⟩⟩]
  | token {place : Nat} {gap own rest : List Char} {token : Token} {lexemes : List Lexeme}
      (areComments : AreComments gap) (nonempty : own ≠ []) (inside : token ≠ .endOfInput)
      (later : Tiled (place + byteCount (gap ++ own)) rest lexemes) :
      Tiled place (gap ++ own ++ rest)
        (⟨token, ⟨place + byteCount gap, place + byteCount (gap ++ own)⟩⟩ :: lexemes)

theorem tiled_ofTextAt (place : Nat) (text : List Char) :
    Tiled place text (ofTextAt place text ++
      [⟨.endOfInput, ⟨place + byteCount text, place + byteCount text⟩⟩]) := by
  -- Every token leaves less text than it was read from.
  induction length : text.length using Nat.strongRecOn generalizing place text with
  | ind size inductionHypothesis =>
      cases found : skipComments text with
      | nil =>
          rw [ofTextAt_eq_nil found, List.nil_append]
          rcases comments_of_skipComments text with ⟨gap, areComments, same⟩ | ⟨_, areComments⟩
          · rw [found, List.append_nil] at same
            rw [same]
            exact .last areComments.last
          · exact .last areComments
      | cons c inside =>
          rcases comments_of_skipComments text with ⟨gap, areComments, same⟩ | ⟨nothing, _⟩
          · obtain ⟨own, joined⟩ := Token.suffix_read c inside
            rw [found, ← joined] at same
            have split : text = gap ++ (c :: own) ++ (Token.read c inside).2 := by
              rw [same, List.append_assoc, List.cons_append]
            have shorter : (Token.read c inside).2.length < size := by
              rw [← length, split]
              simp only [List.length_append, List.length_cons]
              omega
            have start : byteCount text - byteCount (c :: inside) = byteCount gap := by
              rw [same, joined, byteCount_append, Nat.add_sub_cancel]
            have stop : byteCount text - byteCount (Token.read c inside).2 =
                byteCount (gap ++ c :: own) := by
              rw [split, byteCount_append, Nat.add_sub_cancel]
            have total : place + byteCount text = place + byteCount (gap ++ c :: own) +
                byteCount (Token.read c inside).2 := by
              rw [split, byteCount_append, Nat.add_assoc]
            have later := inductionHypothesis _ shorter (place + byteCount (gap ++ c :: own))
              (Token.read c inside).2 rfl
            rw [ofTextAt_eq_cons found, start, stop, total, List.cons_append]
            have tiled := @Tiled.token place _ _ _ _ _ areComments (List.cons_ne_nil c own)
              (Token.read_ne_endOfInput c inside) later
            rw [← split] at tiled
            exact tiled
          · rw [found] at nothing
            cases nothing

theorem token_ne_endOfInput {place : Nat} {text : List Char} {lexeme : Lexeme}
    (member : lexeme ∈ ofTextAt place text) : lexeme.token ≠ .endOfInput := by
  fun_induction ofTextAt place text with
  | case1 => cases member
  | case2 place text c inside _ _ _ _ inductionHypothesis =>
      rcases List.mem_cons.1 member with rfl | later
      · exact Token.read_ne_endOfInput c inside
      · exact inductionHypothesis later

/-- The text that a lexeme was read from. -/
def own (text : List Char) (lexeme : Lexeme) : List Char :=
  slice text lexeme.span.start lexeme.span.stop

/-- The texts in front of the lexemes: in front of the first from byte `place` on, in front of the
others from the end of the one before on. -/
def gaps (text : List Char) (place : Nat) : List Lexeme → List (List Char)
  | [] => []
  | lexeme :: lexemes =>
    slice text place lexeme.span.start :: gaps text lexeme.span.stop lexemes

/-- A lexeme ends where the next one begins, or before. -/
def Precedes (first second : Lexeme) : Prop :=
  first.span.stop ≤ second.span.start

namespace Tiled

variable {place : Nat} {text : List Char} {lexemes : List Lexeme}

theorem ordered (tiled : Tiled place text lexemes) :
    (∀ lexeme ∈ lexemes, place ≤ lexeme.span.start) ∧ lexemes.Pairwise Precedes := by
  induction tiled with
  | last _ =>
      refine ⟨fun lexeme member => ?_, List.pairwise_singleton _ _⟩
      rw [List.mem_singleton.1 member]
      exact Nat.le_add_right _ _
  | token _ _ _ _ inductionHypothesis =>
      obtain ⟨behind, later⟩ := inductionHypothesis
      refine ⟨fun lexeme member => ?_, List.pairwise_cons.2 ⟨behind, later⟩⟩
      rcases List.mem_cons.1 member with rfl | below
      · exact Nat.le_add_right _ _
      · exact Nat.le_trans (Nat.le_add_right _ _) (behind lexeme below)

theorem nonempty (tiled : Tiled place text lexemes) :
    ∀ lexeme ∈ lexemes, lexeme.token ≠ .endOfInput → lexeme.span.start < lexeme.span.stop := by
  induction tiled with
  | last _ =>
      intro lexeme member inside
      rw [List.mem_singleton.1 member] at inside
      exact absurd rfl inside
  | token _ nonempty _ _ inductionHypothesis =>
      intro lexeme member inside
      rcases List.mem_cons.1 member with rfl | later
      · obtain ⟨c, own, rfl⟩ := List.exists_cons_of_ne_nil nonempty
        have positive := Char.utf8Size_pos c
        simp only [byteCount_append, byteCount_cons]
        omega
      · exact inductionHypothesis lexeme later inside

theorem gaps_eq (tiled : Tiled place text lexemes) {front : List Char}
    (behind : byteCount front = place) :
    ∃ closed last, gaps (front ++ text) place lexemes = closed ++ [last] ∧
      (∀ gap ∈ closed, AreComments gap) ∧ AreLastComments last := by
  induction tiled generalizing front with
  | @last place gap areComments =>
      subst behind
      have between := slice_part front gap []
      rw [List.append_nil] at between
      exact ⟨[], gap, by rw [gaps, between, gaps, List.nil_append], by simp, areComments⟩
  | @token place gap own rest token lexemes areComments _ _ _ inductionHypothesis =>
      subst behind
      have between := slice_part front gap (own ++ rest)
      obtain ⟨closed, last, same, each, ends⟩ :=
        inductionHypothesis (byteCount_append front (gap ++ own))
      rw [List.append_assoc front] at same
      rw [← List.append_assoc gap] at between
      refine ⟨gap :: closed, last, by rw [gaps, between, same, List.cons_append], ?_, ends⟩
      intro other member
      rcases List.mem_cons.1 member with rfl | later
      · exact areComments
      · exact each other later

/-- The gaps and the lexemes, each in its place, make up the text. -/
theorem joined (tiled : Tiled place text lexemes) {front : List Char}
    (behind : byteCount front = place) :
    (List.zipWith (fun gap lexeme => gap ++ lexeme.own (front ++ text))
      (gaps (front ++ text) place lexemes) lexemes).flatten = text := by
  induction tiled generalizing front with
  | @last place gap _ =>
      subst behind
      have between := slice_part front gap []
      have nothing := slice_part (front ++ gap) [] []
      rw [List.append_nil] at between nothing
      rw [List.append_nil, byteCount_append, byteCount_nil, Nat.add_zero] at nothing
      simp [gaps, own, between, nothing]
  | @token place gap own_ rest token lexemes _ _ _ _ inductionHypothesis =>
      subst behind
      have between := slice_part front gap (own_ ++ rest)
      have inside := slice_part (front ++ gap) own_ rest
      have later := inductionHypothesis (byteCount_append front (gap ++ own_))
      simp only [List.append_assoc, byteCount_append, Nat.add_assoc] at between inside later ⊢
      rw [gaps, List.zipWith_cons_cons, List.flatten_cons, later]
      simp only [own, between, inside, List.append_assoc]

end Tiled

/-- The lexemes of a text end with one for the end of the input, which is empty. The others are not
empty, begin and end between characters, and stand one behind the other; what is left in front of
them are comments, and comments behind the last of them, where only the last may lack its end. All
these together are the text. -/
theorem tokenize_tiles (text : List Char) :
    ∃ lexemes, tokenize text = lexemes ++ [⟨.endOfInput, ⟨byteCount text, byteCount text⟩⟩] ∧
      (∀ lexeme ∈ lexemes, lexeme.token ≠ .endOfInput ∧ lexeme.span.start < lexeme.span.stop ∧
        OnBoundary text lexeme.span.start ∧ OnBoundary text lexeme.span.stop) ∧
      (tokenize text).Pairwise Precedes ∧
      (∃ closed last, gaps text 0 (tokenize text) = closed ++ [last] ∧
        (∀ gap ∈ closed, AreComments gap) ∧ AreLastComments last) ∧
      (List.zipWith (fun gap lexeme => gap ++ lexeme.own text) (gaps text 0 (tokenize text))
        (tokenize text)).flatten = text := by
  have tiled : Tiled 0 text (tokenize text) := by
    have tiled := tiled_ofTextAt 0 text
    rw [Nat.zero_add] at tiled
    exact tiled
  refine ⟨ofText text, rfl, ?_, tiled.ordered.2, tiled.gaps_eq byteCount_nil,
    tiled.joined byteCount_nil⟩
  intro lexeme member
  have boundaries : OnBoundary ([] ++ text) lexeme.span.start ∧
      OnBoundary ([] ++ text) lexeme.span.stop := onBoundary_of_mem member
  have inside : lexeme.token ≠ .endOfInput := token_ne_endOfInput member
  exact ⟨inside, tiled.nonempty lexeme (List.mem_append_left _ member) inside, boundaries⟩

end Lexeme

end CssLint
