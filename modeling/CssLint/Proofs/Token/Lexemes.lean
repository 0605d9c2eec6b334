import CssLint.Proofs.Text.Places
import CssLint.Proofs.Token.MarkRead

/-!
# Lexemes of joined texts

The lexemes of a text stand on its characters and move with it.  In front of a
semicolon or a closing brace a text has its own lexemes, unless the last of them takes
that mark; then there are no more of them than the text has by itself, and none of them
is the mark.
-/

namespace CssLint

open Text

def Span.shift (distance : Nat) (span : Span) : Span :=
  ⟨distance + span.start, distance + span.stop⟩

namespace Lexeme

def shift (distance : Nat) (lexeme : Lexeme) : Lexeme :=
  ⟨lexeme.token, lexeme.span.shift distance⟩

/-! ## One step -/

theorem ofTextAt_eq_nil {text : List Char} (found : skipComments text = []) (offset : Nat) :
    ofTextAt offset text = [] := by
  rw [ofTextAt]
  split
  · rfl
  · rename_i same
    rw [found] at same
    cases same

theorem ofTextAt_eq_cons {c : Char} {text inside : List Char}
    (found : skipComments text = c :: inside) (offset : Nat) :
    ofTextAt offset text =
      ⟨(Token.read c inside).1,
        ⟨offset + (byteCount text - byteCount (c :: inside)),
          offset + (byteCount text - byteCount (Token.read c inside).2)⟩⟩ ::
        ofTextAt (offset + (byteCount text - byteCount (Token.read c inside).2))
          (Token.read c inside).2 := by
  rw [ofTextAt]
  split
  · rename_i same
    rw [found] at same
    cases same
  · rename_i same
    rw [found] at same
    cases same
    rfl

theorem skipComments_of_not_slash {c : Char} (notSlash : c ≠ '/') (text : List Char) :
    skipComments (c :: text) = c :: text := by
  rw [skipComments]
  split
  · rfl
  · rename_i opened
    simp [after?, Ne.symm notSlash] at opened

theorem ofTextAt_nil (offset : Nat) : ofTextAt offset [] = [] :=
  ofTextAt_eq_nil (by simp [skipComments, after?]) offset

theorem ofTextAt_cons {c : Char} (notSlash : c ≠ '/') (offset : Nat) (text : List Char) :
    ofTextAt offset (c :: text) =
      ⟨(Token.read c text).1,
        ⟨offset, offset + (byteCount (c :: text) - byteCount (Token.read c text).2)⟩⟩ ::
        ofTextAt (offset + (byteCount (c :: text) - byteCount (Token.read c text).2))
          (Token.read c text).2 := by
  rw [ofTextAt_eq_cons (skipComments_of_not_slash notSlash text), Nat.sub_self, Nat.add_zero]

/-- A token that is read of a word in front of the rest of the text. -/
theorem ofTextAt_token {c : Char} {word rest : List Char} {token : Token} (notSlash : c ≠ '/')
    (read : Token.read c (word ++ rest) = (token, rest)) (offset : Nat) :
    ofTextAt offset (c :: word ++ rest) =
      ⟨token, ⟨offset, offset + byteCount (c :: word)⟩⟩ ::
        ofTextAt (offset + byteCount (c :: word)) rest := by
  have size : byteCount (c :: (word ++ rest)) - byteCount rest = byteCount (c :: word) := by
    rw [← List.cons_append, byteCount_append, Nat.add_sub_cancel]
  rw [List.cons_append, ofTextAt_cons notSlash, read, size]

theorem ofTextAt_punctuation {c : Char} {token : Token}
    (punctuation : Token.ofPunctuation? c = some token) (offset : Nat) (text : List Char) :
    ofTextAt offset (c :: text) = ⟨token, ⟨offset, offset + 1⟩⟩ :: ofTextAt (offset + 1) text := by
  have narrow : c ≠ '/' ∧ c.utf8Size = 1 := by
    unfold Token.ofPunctuation? at punctuation
    split at punctuation <;> first | decide | cases punctuation
  rw [ofTextAt_cons narrow.1, Token.read_punctuation punctuation, byteCount_cons,
    Nat.add_sub_cancel, narrow.2]

/-! ## In front of a mark -/

section Mark

variable {mark : Char}

private theorem behind?_mark (isMark : IsMark mark) (text more : List Char) {rest : List Char}
    (found : behind? ['*', '/'] text = some rest) :
    behind? ['*', '/'] (text ++ mark :: more) = some (rest ++ mark :: more) := by
  induction text with
  | nil => cases found
  | cons c text inductionHypothesis =>
      have free : mark ∉ ['*', '/'] := isMark.not_mem (by decide)
      have here := after?_mark free (c :: text) more
      rw [List.cons_append] at here ⊢
      rw [behind?, Option.or_eq_some_iff] at found
      rw [behind?, here]
      rcases found with first | ⟨none, later⟩
      · simp [first]
      · simp [none, inductionHypothesis later]

private theorem behind?_mark_eq_none (isMark : IsMark mark) {text : List Char}
    (missing : behind? ['*', '/'] text = none) : behind? ['*', '/'] (text ++ [mark]) = none := by
  induction text with
  | nil => rcases isMark with rfl | rfl <;> rfl
  | cons c text inductionHypothesis =>
      have free : mark ∉ ['*', '/'] := isMark.not_mem (by decide)
      have here := after?_mark free (c :: text) []
      rw [List.cons_append] at here ⊢
      rw [behind?, Option.or_eq_none_iff] at missing
      rw [behind?, here, missing.1, inductionHypothesis missing.2]
      rfl

theorem skipComments_mark (isMark : IsMark mark) (text : List Char) :
    (∀ more, skipComments (text ++ mark :: more) = skipComments text ++ mark :: more) ∨
      skipComments (text ++ [mark]) = [] := by
  fun_induction skipComments text with
  | case1 text closed =>
      refine Or.inl fun more => ?_
      have free : mark ∉ ['/', '*'] := isMark.not_mem (by decide)
      have opened := after?_mark free text more
      rw [closed] at opened
      rw [skipComments]
      split
      · rfl
      · rename_i same
        rw [opened] at same
        cases same
  | case2 text inside opened inductionHypothesis =>
      have free : mark ∉ ['/', '*'] := isMark.not_mem (by decide)
      have opened' := after?_mark free text
      simp only [opened, Option.map_some] at opened'
      have step : ∀ more, skipComments (text ++ mark :: more) =
          skipComments (skipComment (inside ++ mark :: more)) := by
        intro more
        rw [skipComments]
        split
        · rename_i same
          rw [opened'] at same
          cases same
        · rename_i same
          rw [opened'] at same
          cases same
          rfl
      cases found : behind? ['*', '/'] inside with
      | none =>
          refine Or.inr ?_
          rw [step, skipComment, behind?_mark_eq_none isMark found]
          simp [skipComments, after?]
      | some rest =>
          have closed : ∀ more, skipComment (inside ++ mark :: more) =
              skipComment inside ++ mark :: more := by
            intro more
            rw [skipComment, skipComment, behind?_mark isMark inside more found, found]
            rfl
          rcases inductionHypothesis with settles | swallows
          · exact Or.inl fun more => by rw [step, closed, settles]
          · exact Or.inr (by rw [step, closed, swallows])

private theorem skipComments_skipComments (text : List Char) :
    skipComments (skipComments text) = skipComments text := by
  fun_induction skipComments text with
  | case1 text closed =>
      rw [skipComments]
      split
      · rfl
      · rename_i opened
        rw [closed] at opened
        cases opened
  | case2 text inside opened inductionHypothesis => exact inductionHypothesis

/-- Comments in front of the lexemes only move them. -/
theorem ofTextAt_skipComments (offset : Nat) (text : List Char) :
    ofTextAt (offset + (byteCount text - byteCount (skipComments text))) (skipComments text) =
      ofTextAt offset text := by
  have same := skipComments_skipComments text
  have size := byteCount_le_of_suffix (suffix_skipComments text)
  cases found : skipComments text with
  | nil => rw [ofTextAt_eq_nil found, ofTextAt_eq_nil (by rw [← found, same, found])]
  | cons c inside =>
      have ofToken := byteCount_le_of_suffix
        ((Token.suffix_read c inside).trans (List.suffix_cons c inside))
      have stop : offset + (byteCount text - byteCount (c :: inside)) +
          (byteCount (c :: inside) - byteCount (Token.read c inside).2) =
          offset + (byteCount text - byteCount (Token.read c inside).2) := by
        rw [found] at size
        omega
      rw [found] at same
      rw [ofTextAt_eq_cons found, ofTextAt_eq_cons same, stop, Nat.sub_self, Nat.add_zero]

/-- Behind the text no lexeme is the mark: one of the text's own takes it, or a comment does. -/
structure Taken (mark : Char) (offset : Nat) (text : List Char) : Prop where
  length : (ofTextAt offset (text ++ [mark])).length ≤ (ofTextAt offset text).length
  token : ∀ lexeme ∈ ofTextAt offset (text ++ [mark]),
    lexeme.span.stop = offset + byteCount text + 1 → Token.ofPunctuation? mark ≠ some lexeme.token

section First

variable {text inside : List Char} {c : Char}

/-- Behind its first token the text has the bytes that are left. -/
private theorem byteCount_behind (found : skipComments text = c :: inside) (offset : Nat) :
    offset + (byteCount text - byteCount (Token.read c inside).2) +
        byteCount (Token.read c inside).2 = offset + byteCount text := by
  have ofToken := (Token.suffix_read c inside).trans (List.suffix_cons c inside)
  have size := byteCount_le_of_suffix (ofToken.trans (found ▸ suffix_skipComments text))
  omega

/-- A first token that settles is the first lexeme also in front of a mark. -/
private theorem ofTextAt_of_settles (found : skipComments text = c :: inside)
    (settled : ∀ more, skipComments (text ++ mark :: more) = skipComments text ++ mark :: more)
    (settles : Settles mark (Token.read c) inside) (offset : Nat) (more : List Char) :
    ofTextAt offset (text ++ mark :: more) =
      ⟨(Token.read c inside).1,
        ⟨offset + (byteCount text - byteCount (c :: inside)),
          offset + (byteCount text - byteCount (Token.read c inside).2)⟩⟩ ::
        ofTextAt (offset + (byteCount text - byteCount (Token.read c inside).2))
          ((Token.read c inside).2 ++ mark :: more) := by
  have found' : skipComments (text ++ mark :: more) = c :: (inside ++ mark :: more) := by
    rw [settled, found, List.cons_append]
  have start : byteCount (text ++ mark :: more) - byteCount (c :: (inside ++ mark :: more)) =
      byteCount text - byteCount (c :: inside) := by
    rw [← List.cons_append, byteCount_append, byteCount_append, Nat.add_sub_add_right]
  have stop : byteCount (text ++ mark :: more) -
      byteCount ((Token.read c inside).2 ++ mark :: more) =
      byteCount text - byteCount (Token.read c inside).2 := by
    rw [byteCount_append, byteCount_append, Nat.add_sub_add_right]
  rw [ofTextAt_eq_cons found', settles more, start, stop]

/-- A mark that is taken behind the first token is taken. -/
private theorem Taken.behind (found : skipComments text = c :: inside)
    (settled : ∀ more, skipComments (text ++ mark :: more) = skipComments text ++ mark :: more)
    (settles : Settles mark (Token.read c) inside) {offset : Nat}
    (taken : Taken mark (offset + (byteCount text - byteCount (Token.read c inside).2))
      (Token.read c inside).2) : Taken mark offset text where
  length := by
    rw [ofTextAt_of_settles found settled settles, ofTextAt_eq_cons found, List.length_cons,
      List.length_cons]
    exact Nat.succ_le_succ taken.length
  token := fun lexeme member stop => by
    have total := byteCount_behind found offset
    rw [ofTextAt_of_settles found settled settles] at member
    -- The first token ends inside the text, so it is one of the others.
    rcases List.mem_cons.1 member with rfl | later
    · simp only at stop
      omega
    · exact taken.token lexeme later (by rw [stop, total])

/-- A mark that the first token swallows is taken. -/
private theorem Taken.swallowed (found : skipComments text = c :: inside)
    (settled : ∀ more, skipComments (text ++ mark :: more) = skipComments text ++ mark :: more)
    (swallows : Swallows mark (Token.read c) inside) (offset : Nat) : Taken mark offset text := by
  have found' : skipComments (text ++ [mark]) = c :: (inside ++ [mark]) := by
    rw [settled, found, List.cons_append]
  constructor
  · rw [ofTextAt_eq_cons found', ofTextAt_eq_cons found, swallows, ofTextAt_nil]
    exact Nat.succ_le_succ (Nat.zero_le _)
  · intro lexeme member _ punctuation
    rw [ofTextAt_eq_cons found', swallows, ofTextAt_nil] at member
    rw [List.mem_singleton.1 member] at punctuation
    -- A token that is the mark would leave what follows its only character.
    have rest := (Token.eq_of_read_punctuation punctuation).2
    rw [swallows] at rest
    simp at rest

end First

/-- The lexemes of a text in front of a mark are its own, or one of them takes it. -/
theorem ofTextAt_append_mark (isMark : IsMark mark) (offset : Nat) (text : List Char) :
    (∀ more, ofTextAt offset (text ++ mark :: more) =
      ofTextAt offset text ++ ofTextAt (offset + byteCount text) (mark :: more)) ∨
      Taken mark offset text := by
  induction length : text.length using Nat.strongRecOn generalizing offset text with
  | ind size inductionHypothesis =>
      rcases skipComments_mark isMark text with settled | swallowed
      · cases found : skipComments text with
        | nil =>
            refine Or.inl fun more => ?_
            rw [ofTextAt_eq_nil found, List.nil_append, ← ofTextAt_skipComments, settled, found,
              List.nil_append, byteCount_append, Nat.add_sub_cancel]
        | cons c inside =>
            have shorter : (Token.read c inside).2.length < size := by
              have ofComments := (suffix_skipComments text).length_le
              have ofToken := (Token.suffix_read c inside).length_le
              rw [found, List.length_cons] at ofComments
              omega
            rcases Token.read_mark isMark c inside with settles | swallows
            · have first := ofTextAt_of_settles found settled settles offset
              rcases inductionHypothesis _ shorter _ _ rfl with same | taken
              · refine Or.inl fun more => ?_
                rw [first, same, ofTextAt_eq_cons found, byteCount_behind found, List.cons_append]
              · exact Or.inr (taken.behind found settled settles)
            · exact Or.inr (.swallowed found settled swallows offset)
      · have nothing := ofTextAt_eq_nil swallowed offset
        refine Or.inr ⟨?_, fun lexeme member => ?_⟩
        · rw [nothing]
          exact Nat.zero_le _
        · rw [nothing] at member
          cases member

/-- A mark that is a lexeme by itself at the end of a text is its last character. -/
private theorem exists_append_of_mark (isMark : IsMark mark) {offset : Nat} {text : List Char}
    {lexeme : Lexeme} (member : lexeme ∈ ofTextAt offset text)
    (punctuation : Token.ofPunctuation? mark = some lexeme.token)
    (stop : lexeme.span.stop = offset + byteCount text) : ∃ front, text = front ++ [mark] := by
  fun_induction ofTextAt offset text with
  | case1 => cases member
  | case2 offset text c inside found token start stop_ inductionHypothesis =>
      have ofComments : c :: inside <:+ text := found ▸ suffix_skipComments text
      have ofToken : token.2 <:+ inside := Token.suffix_read c inside
      have size := byteCount_le_of_suffix ((ofToken.trans (List.suffix_cons c inside)).trans
        ofComments)
      rcases List.mem_cons.1 member with rfl | later
      · obtain ⟨rfl, rest⟩ := Token.eq_of_read_punctuation punctuation
        have nothing : inside = [] := byteCount_eq_zero (by
          simp only [stop_, token, rest] at stop size
          omega)
        obtain ⟨front, same⟩ := ofComments
        exact ⟨front, by rw [← same, nothing]⟩
      · obtain ⟨front, same⟩ := inductionHypothesis later (by
          rw [stop]
          omega)
        obtain ⟨before, joined⟩ := (ofToken.trans (List.suffix_cons c inside)).trans ofComments
        exact ⟨before ++ front, by rw [← joined, same, List.append_assoc]⟩

/-- Behind a text that ends with a mark any other text has its own lexemes. -/
theorem ofTextAt_append_of_mark (isMark : IsMark mark) {offset : Nat} {text : List Char}
    {lexeme : Lexeme} (member : lexeme ∈ ofTextAt offset text)
    (punctuation : Token.ofPunctuation? mark = some lexeme.token)
    (stop : lexeme.span.stop = offset + byteCount text) (more : List Char) :
    ofTextAt offset (text ++ more) =
      ofTextAt offset text ++ ofTextAt (offset + byteCount text) more := by
  obtain ⟨front, rfl⟩ := exists_append_of_mark isMark member punctuation stop
  have size : byteCount (front ++ [mark]) = byteCount front + 1 := by
    rw [byteCount_append, byteCount_cons, isMark.utf8Size, byteCount_nil]
  rcases ofTextAt_append_mark isMark offset front with settles | taken
  · have alone := settles []
    rw [ofTextAt_punctuation punctuation, ofTextAt_nil] at alone
    rw [alone, List.append_assoc, List.singleton_append, settles more,
      ofTextAt_punctuation punctuation, List.append_assoc, size, Nat.add_assoc]
    rfl
  · exact absurd punctuation (taken.token lexeme member (by rw [stop, size, Nat.add_assoc]))

end Mark

/-! ## Places -/

theorem ofTextAt_add (distance offset : Nat) (text : List Char) :
    ofTextAt (distance + offset) text = (ofTextAt offset text).map (shift distance) := by
  fun_induction ofTextAt offset text with
  | case1 offset text found => rw [ofTextAt_eq_nil found, List.map_nil]
  | case2 offset text c inside found token start stop inductionHypothesis =>
      rw [ofTextAt_eq_cons found, List.map_cons, ← inductionHypothesis]
      simp only [shift, Span.shift, token, start, stop, Nat.add_assoc]

/-- A lexeme is read at its place from the characters that stand there. -/
theorem exists_read {front text : List Char} {lexeme : Lexeme}
    (member : lexeme ∈ ofTextAt (byteCount front) text) :
    ∃ left c inside, front ++ text = left ++ c :: inside ∧
      lexeme = ⟨(Token.read c inside).1, ⟨byteCount left,
        byteCount left + (byteCount (c :: inside) - byteCount (Token.read c inside).2)⟩⟩ := by
  induction length : text.length using Nat.strongRecOn generalizing front text with
  | ind size inductionHypothesis =>
      cases found : skipComments text with
      | nil =>
          rw [ofTextAt_eq_nil found] at member
          cases member
      | cons c inside =>
          obtain ⟨gap, ofComments⟩ : c :: inside <:+ text := found ▸ suffix_skipComments text
          obtain ⟨own, ofToken⟩ :=
            (Token.suffix_read c inside).trans (List.suffix_cons c inside)
          have sizeText := congrArg byteCount ofComments
          have sizeToken := congrArg byteCount ofToken
          rw [byteCount_append] at sizeText sizeToken
          have start : byteCount front + (byteCount text - byteCount (c :: inside)) =
              byteCount (front ++ gap) := by
            rw [byteCount_append]
            omega
          have stop : byteCount front + (byteCount text - byteCount (Token.read c inside).2) =
              byteCount (front ++ gap) +
                (byteCount (c :: inside) - byteCount (Token.read c inside).2) := by
            rw [byteCount_append]
            omega
          rw [ofTextAt_eq_cons found, start] at member
          rcases List.mem_cons.1 member with here | later
          · rw [stop] at here
            exact ⟨front ++ gap, c, inside, by rw [List.append_assoc, ofComments], here⟩
          · have shorter : (Token.read c inside).2.length < size := by
              have commentsLength := congrArg List.length ofComments
              have tokenLength := (Token.suffix_read c inside).length_le
              rw [List.length_append, List.length_cons] at commentsLength
              omega
            have behind : byteCount front + (byteCount text - byteCount (Token.read c inside).2) =
                byteCount (front ++ gap ++ own) := by
              rw [stop, byteCount_append _ own]
              omega
            rw [behind] at later
            have joined : front ++ text = (front ++ gap ++ own) ++ (Token.read c inside).2 := by
              rw [List.append_assoc, ofToken, List.append_assoc, ofComments]
            rw [joined]
            exact inductionHypothesis _ shorter later rfl

/-- Lexemes begin and end between characters of the text. -/
theorem onBoundary_of_mem {front text : List Char} {lexeme : Lexeme}
    (member : lexeme ∈ ofTextAt (byteCount front) text) :
    OnBoundary (front ++ text) lexeme.span.start ∧
      OnBoundary (front ++ text) lexeme.span.stop := by
  obtain ⟨left, c, inside, joined, rfl⟩ := exists_read member
  obtain ⟨own, same⟩ := (Token.suffix_read c inside).trans (List.suffix_cons c inside)
  refine ⟨⟨left, _, joined, rfl⟩, left ++ own, (Token.read c inside).2, ?_, ?_⟩
  · rw [joined, ← same, List.append_assoc]
  · rw [← same, byteCount_append, byteCount_append, Nat.add_sub_cancel]

end Lexeme

end CssLint
