import CssLint.Proofs.Token.Change
import CssLint.Proofs.Token.Tiles

/-!
# Names and numbers of cut texts

A reader looks ahead to see where its name or number ends, and takes nothing of what it
sees there.  So it reads the same when less of the text behind stands there, down to
nothing.  The end of a text differs from a character in one thing only: a backslash
begins an escape there, also when a line feed was cut off behind it.
-/

namespace CssLint

open Text

/-- The reader takes the same when of what it leaves only a beginning stands behind that. -/
def Cuts (reader : List Char → List Char × List Char) (text : List Char) : Prop :=
  ∀ front, front <+: (reader text).2 → reader ((reader text).1 ++ front) = ((reader text).1, front)

/-! ## Tests at the beginning -/

/-- What a run of characters leaves does not become part of the run when it is cut. -/
theorem span_cut {property : Char → Bool} {text front : List Char}
    (cut : front <+: text.dropWhile property) :
    (text.takeWhile property ++ front).takeWhile property = text.takeWhile property ∧
      (text.takeWhile property ++ front).dropWhile property = front := by
  have run : ∀ c ∈ text.takeWhile property, property c = true :=
    List.all_eq_true.1 List.all_takeWhile
  have stops : front.takeWhile property = [] ∧ front.dropWhile property = front := by
    cases front with
    | nil => exact ⟨rfl, rfl⟩
    | cons c front =>
        obtain ⟨more, same⟩ := cut
        have fails : property c = false := by
          have head := List.head?_dropWhile_not property text
          rw [← same] at head
          simpa using head
        simp [fails]
  rw [List.takeWhile_append_of_pos run, List.dropWhile_append_of_pos run, stops.1, stops.2,
    List.append_nil]
  exact ⟨rfl, rfl⟩

theorem cut_append {own front rest text : List Char} (joined : own ++ rest = text)
    (cut : front <+: rest) : own ++ front <+: text := by
  rw [← joined]
  exact (List.prefix_append_right_inj own).2 cut

/-- A word that stands at the beginning of a part that was cut off stands there in the text. -/
theorem after?_isSome_of_cut {word front text : List Char} (cut : front <+: text)
    (found : (after? word front).isSome = true) : (after? word text).isSome = true := by
  obtain ⟨rest, same⟩ := Option.isSome_iff_exists.1 found
  obtain ⟨more, rfl⟩ := cut
  rw [eq_append_of_after? same, List.append_assoc, after?_append]
  rfl

namespace Name

/-! ## Escapes -/

theorem startsEscape_of_cut {c : Char} {front text : List Char} (cut : front <+: text)
    (begins : startsEscape (c :: text) = true) : startsEscape (c :: front) = true := by
  obtain ⟨rfl, noFeed⟩ := head?_of_startsEscape begins
  cases front with
  | nil => rfl
  | cons d front =>
      obtain ⟨more, rfl⟩ := cut
      have other : d ≠ '\n' := by simpa using noFeed
      simp [startsEscape, other]

/-- Whether a character begins an escape depends on the next one alone. -/
theorem startsEscape_congr {c : Char} {text other : List Char} (same : text.head? = other.head?) :
    startsEscape (c :: text) = startsEscape (c :: other) := by
  cases text with
  | nil => rw [List.head?_eq_none_iff.1 same.symm]
  | cons d text =>
      obtain ⟨more, rfl⟩ := List.head?_eq_some_iff.1 same.symm
      by_cases backslash : c = '\\'
      · subst backslash
        by_cases feed : d = '\n'
        · rw [feed]
          rfl
        · simp [startsEscape, feed]
      · rw [startsEscape_of_ne backslash, startsEscape_of_ne backslash]

theorem takeAtMost_cuts (property : Char → Bool) (limit : Nat) (text : List Char) :
    Cuts (takeAtMost property limit) text := by
  intro front cut
  induction limit generalizing text with
  | zero => rfl
  | succ limit inductionHypothesis =>
      cases text with
      | nil =>
          rw [List.prefix_nil.1 cut]
          rfl
      | cons c text =>
          by_cases holds : property c = true
          · simp only [takeAtMost, holds, if_true] at cut ⊢
            simp only [List.cons_append, takeAtMost, holds, if_true, inductionHypothesis text cut]
          · simp only [takeAtMost, holds, Bool.false_eq_true, if_false] at cut ⊢
            rcases List.prefix_cons_iff.1 cut with rfl | ⟨more, rfl, _⟩
            · rfl
            · simp only [List.nil_append, takeAtMost, holds, Bool.false_eq_true, if_false]

theorem exists_dropBlank (text : List Char) :
    ∃ blank, text = blank ++ dropBlank text ∧
      ∀ front, front <+: dropBlank text → dropBlank (blank ++ front) = front := by
  cases text with
  | nil =>
      refine ⟨[], rfl, fun front cut => ?_⟩
      rw [List.prefix_nil.1 cut]
      rfl
  | cons c text =>
      by_cases isBlank_ : isBlank c = true
      · refine ⟨[c], ?_, fun front _ => ?_⟩
        · simp [dropBlank, isBlank_]
        · simp [dropBlank, isBlank_]
      · refine ⟨[], by rw [List.nil_append, dropBlank, if_neg isBlank_], fun front cut => ?_⟩
        rw [dropBlank, if_neg isBlank_] at cut
        rcases List.prefix_cons_iff.1 cut with rfl | ⟨more, rfl, _⟩
        · rfl
        · rw [List.nil_append, dropBlank, if_neg isBlank_]

/-- What the reader of escapes takes of the text. -/
structure EscapeSlice (text own : List Char) : Prop where
  split : text = own ++ (readEscape text).2
  again : ∀ front, front <+: (readEscape text).2 →
    readEscape (own ++ front) = ((readEscape text).1, front)
  head : own.head? = text.head?

theorem exists_escapeSlice (text : List Char) : ∃ own, EscapeSlice text own := by
  cases text with
  | nil =>
      refine ⟨[], rfl, fun front cut => ?_, rfl⟩
      rw [readEscape, List.prefix_nil] at cut
      rw [cut]
      rfl
  | cons c text =>
      by_cases digit : isHexDigit c = true
      · have joined := takeAtMost_append isHexDigit 5 text
        obtain ⟨blank, ofBlank, dropped⟩ := exists_dropBlank (takeAtMost isHexDigit 5 text).2
        have rest : (readEscape (c :: text)).2 = dropBlank (takeAtMost isHexDigit 5 text).2 := by
          simp only [readEscape, digit, if_true]
        refine ⟨c :: ((takeAtMost isHexDigit 5 text).1 ++ blank), ?_, fun front cut => ?_, rfl⟩
        · rw [rest, List.cons_append, List.append_assoc, ← ofBlank, joined]
        · rw [rest] at cut
          have behind := cut_append ofBlank.symm cut
          rw [List.cons_append, List.append_assoc]
          simp only [readEscape, digit, if_true, takeAtMost_cuts isHexDigit 5 text _ behind,
            dropped front cut]
      · refine ⟨[c], ?_, fun front _ => ?_, rfl⟩
        · simp [readEscape, digit]
        · simp [readEscape, digit]

/-! ## Names -/

/-- What may be left of the text behind a name: a beginning of it that is no backslash alone. -/
def IsCut (front rest : List Char) : Prop :=
  front <+: rest ∧ startsEscape front = false

/-- What the reader of names takes of the text.  In front of a cut the same name begins. -/
structure NameSlice (text own : List Char) : Prop where
  split : text = own ++ (read text).2
  again : ∀ front, IsCut front (read text).2 → read (own ++ front) = ((read text).1, front)
  part : ∀ front, IsCut front (read text).2 →
    (own ++ front).head?.any isPart = text.head?.any isPart
  escape : ∀ front, IsCut front (read text).2 → startsEscape (own ++ front) = startsEscape text
  starts : ∀ front, IsCut front (read text).2 → starts (own ++ front) = starts text

/-- Where neither a character of names nor an escape stands, no name begins. -/
theorem not_starts {text : List Char} (notPart : text.head?.any isPart = false)
    (noEscape : startsEscape text = false) : starts text = false := by
  cases text with
  | nil => rfl
  | cons c text =>
      have notPart : isPart c = false := notPart
      simp only [isPart, Bool.or_eq_false_iff, beq_eq_false_iff_ne] at notPart
      rw [starts, notPart.1.1, noEscape, Bool.or_self]
      simp [notPart.2]

theorem nameSlice_nil {text : List Char} (notPart : text.head?.any isPart = false)
    (noEscape : startsEscape text = false) : NameSlice text [] := by
  have stops : ∀ front, front <+: text → front.head?.any isPart = false := by
    intro front cut
    cases front with
    | nil => rfl
    | cons c front =>
        obtain ⟨more, rfl⟩ := cut
        exact notPart
  have none : ∀ text : List Char, text.head?.any isPart = false → startsEscape text = false →
      Name.read text = ([], text) := by
    intro text notPart noEscape
    cases text with
    | nil => rw [Name.read]
    | cons c text =>
        have notPart : ¬ isPart c = true := by simpa using notPart
        rw [Name.read, if_neg notPart, if_neg (by simp [noEscape])]
  have whole := none text notPart noEscape
  constructor
  · rw [whole]
    rfl
  all_goals
    rw [whole]
    intro front cut
    rw [List.nil_append]
  · exact none front (stops front cut.1) cut.2
  · rw [stops front cut.1, notPart]
  · rw [cut.2, noEscape]
  · rw [not_starts (stops front cut.1) cut.2, not_starts notPart noEscape]

/-- Behind a hyphen a name goes on with a hyphen, the start of a name or an escape. -/
theorem starts_hyphen (text : List Char) :
    starts ('-' :: text) =
      (text.head?.any (fun c => c == '-' || isStart c) || startsEscape text) := by
  cases text <;> rfl

/-- With a cut behind it a slice begins as the text does, or both have no part of a name there. -/
theorem NameSlice.cut_cases {text own front : List Char} (slice : NameSlice text own)
    (cut : IsCut front (Name.read text).2) :
    (∃ d more rest, own ++ front = d :: more ∧ text = d :: rest) ∨
      own ++ front = [] ∧ text.head?.any isPart = false := by
  have part := slice.part front cut
  cases same : own ++ front with
  | nil =>
      rw [same] at part
      exact Or.inr ⟨rfl, part.symm⟩
  | cons d more =>
      obtain ⟨behind, joined⟩ := cut.1
      refine Or.inl ⟨d, more, more ++ behind, rfl, ?_⟩
      rw [slice.split, ← joined, ← List.append_assoc, same, List.cons_append]

/-- A character of names and the slice behind it. -/
theorem nameSlice_part {c : Char} {text own : List Char} (part : isPart c = true)
    (slice : NameSlice text own) : NameSlice (c :: text) (c :: own) := by
  have whole : ∀ text, Name.read (c :: text) = (c :: (Name.read text).1, (Name.read text).2) := by
    intro text
    rw [Name.read, if_pos part]
  have other : c ≠ '\\' := by
    rintro rfl
    cases part
  constructor
  · rw [whole, List.cons_append, ← slice.split]
  all_goals
    rw [whole]
    intro front cut
    rw [List.cons_append]
  · rw [whole, slice.again front cut]
  · rfl
  · rw [startsEscape_of_ne other, startsEscape_of_ne other]
  · by_cases hyphen : c = '-'
    · subst hyphen
      -- The character behind the hyphen is the same, or none was left of it and it was no part.
      rw [starts_hyphen, starts_hyphen, slice.escape front cut]
      rcases slice.cut_cases cut with ⟨d, more, rest, same, rfl⟩ | ⟨same, notPart⟩
      · rw [same]
        rfl
      · rw [same]
        cases text with
        | nil => rfl
        | cons d text =>
            have notPart : isPart d = false := notPart
            simp only [isPart, Bool.or_eq_false_iff] at notPart
            simp [notPart.1.1, notPart.2]
    · have plain : ∀ text, Name.starts (c :: text) = isStart c := by
        intro text
        rw [starts, startsEscape_of_ne other, Bool.or_false]
        simp [hyphen]
      rw [plain, plain]

/-- An escape and the slice behind it. -/
theorem nameSlice_escape {text escapeOwn own : List Char}
    (begins : startsEscape ('\\' :: text) = true) (escapeSlice : EscapeSlice text escapeOwn)
    (slice : NameSlice (readEscape text).2 own) :
    NameSlice ('\\' :: text) ('\\' :: (escapeOwn ++ own)) := by
  have notPart : ¬ isPart '\\' = true := by decide
  have whole : ∀ text, startsEscape ('\\' :: text) = true → Name.read ('\\' :: text) =
      ((readEscape text).1 :: (Name.read (readEscape text).2).1,
        (Name.read (readEscape text).2).2) := by
    intro text begins
    rw [Name.read, if_neg notPart, if_pos begins]
  -- In front of a cut the backslash begins an escape as well, and the same one.
  have still : ∀ front, IsCut front (Name.read (readEscape text).2).2 →
      readEscape (escapeOwn ++ (own ++ front)) = ((readEscape text).1, own ++ front) ∧
        startsEscape ('\\' :: (escapeOwn ++ (own ++ front))) = true := by
    intro front cut
    have behind := cut_append slice.split.symm cut.1
    exact ⟨escapeSlice.again _ behind,
      startsEscape_of_cut (cut_append escapeSlice.split.symm behind) begins⟩
  constructor
  · rw [whole text begins, List.cons_append, List.append_assoc, ← slice.split,
      ← escapeSlice.split]
  all_goals
    rw [whole text begins]
    intro front cut
    obtain ⟨escape, begins'⟩ := still front cut
    rw [List.cons_append, List.append_assoc]
  · rw [whole _ begins', escape, slice.again front cut]
  · rfl
  · rw [begins', begins]
  · rw [starts, starts, begins', begins]
    all_goals simp

theorem exists_nameSlice (text : List Char) : ∃ own, NameSlice text own := by
  fun_induction Name.read text with
  | case1 => exact ⟨[], nameSlice_nil rfl rfl⟩
  | case2 c text part name rest same inductionHypothesis =>
      obtain ⟨own, slice⟩ := inductionHypothesis
      exact ⟨c :: own, nameSlice_part part slice⟩
  | case3 c text notPart begins escape name rest same inductionHypothesis =>
      obtain ⟨own, slice⟩ := inductionHypothesis
      obtain ⟨escapeOwn, escapeSlice⟩ := exists_escapeSlice text
      obtain ⟨rfl, -⟩ := head?_of_startsEscape begins
      exact ⟨_, nameSlice_escape begins escapeSlice slice⟩
  | case4 c text notPart noEscape =>
      exact ⟨[], nameSlice_nil (by simpa using notPart) (by simpa using noEscape)⟩

theorem isCut_nil (text : List Char) : IsCut [] text :=
  ⟨List.nil_prefix, rfl⟩

/-- A slice by itself is the same name, and begins as the text does. -/
theorem NameSlice.alone {text own : List Char} (slice : NameSlice text own) :
    Name.read own = ((Name.read text).1, []) ∧
      own.head?.any isPart = text.head?.any isPart ∧
      startsEscape own = startsEscape text ∧ Name.starts own = Name.starts text := by
  have again := slice.again [] (isCut_nil _)
  have part := slice.part [] (isCut_nil _)
  have escape := slice.escape [] (isCut_nil _)
  have starts := slice.starts [] (isCut_nil _)
  rw [List.append_nil] at again part escape starts
  exact ⟨again, part, escape, starts⟩

end Name

/-! ## Numbers -/

namespace Numeral

theorem startsDigit_of_cut {front text : List Char} (cut : front <+: text)
    (begins : startsDigit front = true) : startsDigit text = true := by
  cases front with
  | nil => cases begins
  | cons c front =>
      obtain ⟨more, rfl⟩ := cut
      exact begins

theorem readSign_of_cut {front text : List Char} (cut : front <+: text) :
    (readSign front).2 <+: (readSign text).2 := by
  cases front with
  | nil => exact List.nil_prefix
  | cons c front =>
      obtain ⟨more, rfl⟩ := cut
      rw [List.cons_append, readSign, readSign]
      split
      · exact List.prefix_append front more
      · exact List.prefix_append (c :: front) more

/-- Whether a number without a sign begins. -/
def startsUnsigned : List Char → Bool
  | [] => false
  | c :: text => if c = '.' then startsDigit text else c.isDigit

theorem starts_eq (text : List Char) : starts text = startsUnsigned (readSign text).2 := by
  cases text with
  | nil => rfl
  | cons c text =>
      by_cases sign : c = '+' ∨ c = '-'
      · have behind : (readSign (c :: text)).2 = text := by simp [readSign, sign]
        rw [starts_sign sign, behind]
        cases text with
        | nil => rfl
        | cons d text =>
            rw [List.head?_cons, List.tail_cons, startsUnsigned, startsDigit]
            simp only [Option.some_inj]
      · have behind : (readSign (c :: text)).2 = c :: text := by simp [readSign, sign]
        rw [behind, startsUnsigned]
        by_cases point : c = '.'
        · rw [if_pos point, point]
          rfl
        · rw [if_neg point]
          unfold starts
          split <;> simp_all [startsDigit]

theorem starts_of_cut {front text : List Char} (cut : front <+: text)
    (begins : starts front = true) : starts text = true := by
  rw [starts_eq] at begins ⊢
  obtain ⟨more, same⟩ := readSign_of_cut cut
  rw [← same]
  cases unsigned : (readSign front).2 with
  | nil =>
      rw [unsigned] at begins
      cases begins
  | cons c digits =>
      rw [unsigned] at begins
      rw [List.cons_append]
      by_cases point : c = '.'
      · rw [startsUnsigned, if_pos point] at begins ⊢
        exact startsDigit_of_cut (List.prefix_append digits more) begins
      · rwa [startsUnsigned, if_neg point] at begins ⊢

/-! ## The parts of a number -/

theorem readSign_cuts (text : List Char) : Cuts readSign text := by
  intro front cut
  cases text with
  | nil =>
      rw [List.prefix_nil.1 cut]
      rfl
  | cons c text =>
      by_cases sign : (c = '+' || c = '-') = true
      · rw [readSign, if_pos sign]
        rw [List.singleton_append, readSign, if_pos sign]
      · rw [readSign, if_neg sign] at cut ⊢
        rcases List.prefix_cons_iff.1 cut with rfl | ⟨more, rfl, _⟩
        · rfl
        · rw [List.nil_append, readSign, if_neg sign]

theorem readDigits_cuts (text : List Char) : Cuts readDigits text := by
  intro front cut
  obtain ⟨run, rest⟩ := span_cut cut
  exact Prod.ext run rest

theorem startsDigit_readDigits {text : List Char} (begins : startsDigit text = true)
    (more : List Char) : startsDigit ((readDigits text).1 ++ more) = true := by
  cases text with
  | nil => cases begins
  | cons c text =>
      have digit : c.isDigit = true := begins
      simp [readDigits, digit, startsDigit]

theorem readFraction_cuts (text : List Char) : Cuts readFraction text := by
  intro front cut
  cases text with
  | nil =>
      rw [List.prefix_nil.1 cut]
      rfl
  | cons c text =>
      by_cases point : (c = '.' && startsDigit text) = true
      · rw [readFraction, if_pos point] at cut ⊢
        obtain ⟨isPoint, begins⟩ := Bool.and_eq_true_iff.1 point
        have begins' := startsDigit_readDigits begins front
        rw [List.cons_append, readFraction, if_pos (by rw [isPoint, begins']; rfl),
          readDigits_cuts text front cut]
      · rw [readFraction, if_neg point] at cut ⊢
        rcases List.prefix_cons_iff.1 cut with rfl | ⟨more, rfl, before⟩
        · rfl
        · rw [List.nil_append, readFraction, if_neg]
          intro point'
          obtain ⟨isPoint, begins⟩ := Bool.and_eq_true_iff.1 point'
          exact point (by rw [isPoint, startsDigit_of_cut before begins]; rfl)

theorem readExponent_cuts (text : List Char) : Cuts readExponent text := by
  intro front cut
  cases text with
  | nil =>
      rw [List.prefix_nil.1 cut]
      rfl
  | cons c text =>
      by_cases exponent : ((c = 'e' || c = 'E') && startsDigit (readSign text).2) = true
      · rw [readExponent, if_pos exponent] at cut ⊢
        obtain ⟨isLetter, begins⟩ := Bool.and_eq_true_iff.1 exponent
        have behind := cut_append (readDigits_append (readSign text).2) cut
        have sign := readSign_cuts text _ behind
        have digits := readDigits_cuts (readSign text).2 front cut
        have begins' := startsDigit_readDigits begins front
        simp only [List.cons_append, List.append_assoc, readExponent, sign, digits, begins',
          isLetter, Bool.and_self, if_true]
      · rw [readExponent, if_neg exponent] at cut ⊢
        rcases List.prefix_cons_iff.1 cut with rfl | ⟨more, rfl, before⟩
        · rfl
        · rw [List.nil_append, readExponent, if_neg]
          intro exponent'
          obtain ⟨isLetter, begins⟩ := Bool.and_eq_true_iff.1 exponent'
          have begins' := startsDigit_of_cut (readSign_of_cut before) begins
          exact exponent (by rw [isLetter, begins']; rfl)

theorem read_cuts (text : List Char) : Cuts read text := by
  intro front cut
  have behindFraction := cut_append (readExponent_append _) cut
  have behindDigits := cut_append (readFraction_append _) behindFraction
  have behindSign := cut_append (readDigits_append _) behindDigits
  have sign := readSign_cuts _ _ behindSign
  have digits := readDigits_cuts _ _ behindDigits
  have fraction := readFraction_cuts _ _ behindFraction
  have exponent := readExponent_cuts _ _ cut
  simp only [read, List.append_assoc] at exponent ⊢
  simp only [sign, digits, fraction, exponent]

/-- The digits and the fraction of a number without a sign begin one. -/
theorem startsUnsigned_read {text : List Char} (begins : startsUnsigned text = true)
    (more : List Char) : startsUnsigned
      ((readDigits text).1 ++ ((readFraction (readDigits text).2).1 ++ more)) = true := by
  cases text with
  | nil => cases begins
  | cons c text =>
      by_cases point : c = '.'
      · subst point
        have behind : startsDigit text = true := begins
        have digits : readDigits ('.' :: text) = ([], '.' :: text) := by
          simp [readDigits, show '.'.isDigit = false by decide]
        have fraction : (readFraction ('.' :: text)).1 = '.' :: (readDigits text).1 := by
          simp [readFraction, behind]
        rw [digits, fraction]
        exact startsDigit_readDigits behind more
      · have digit : c.isDigit = true := by
          simpa [startsUnsigned, point, startsDigit] using begins
        simp [readDigits, digit, startsUnsigned, point]

/-- The text of a number begins a number. -/
theorem starts_read {text : List Char} (begins : starts text = true) :
    starts (read text).1 = true := by
  rw [starts_eq] at begins ⊢
  have unsigned := startsUnsigned_read begins
    (readExponent (readFraction (readDigits (readSign text).2).2).2).1
  have behindSign : (readDigits (readSign text).2).1 ++
      ((readFraction (readDigits (readSign text).2).2).1 ++
        (readExponent (readFraction (readDigits (readSign text).2).2).2).1) <+:
        (readSign text).2 := by
    refine ⟨(read text).2, ?_⟩
    simp only [read, List.append_assoc]
    rw [readExponent_append, readFraction_append, readDigits_append]
  simp only [read, List.append_assoc, readSign_cuts _ _ behindSign]
  exact unsigned

end Numeral

end CssLint
