import CssLint.Proofs.Sheet.PlainPieces

/-!
# Reading plain selectors as pieces

The texts of plain selectors, part by part: each is read as quiet pieces in front of
what may follow it.
-/

namespace CssLint.Sheet

open Selector.Written Text

/-! ## Names and signs -/

namespace Reads

variable {rest : List Char}

theorem letters {name : List Char} (nonempty : name ≠ [])
    (letters : ∀ c ∈ name, c.isAlpha = true) (ends : EndsName rest) :
    Reads Token.isQuiet name rest := by
  cases name with
  | nil => exact absurd rfl nonempty
  | cons c name =>
      have first := letters c List.mem_cons_self
      have quiet : (Token.ident (c :: name)).isQuiet = true := by
        have notHyphen : c ≠ '-' := ne_of_isAlpha first (by decide)
        simp [Token.isQuiet, List.isPrefixOf, Ne.symm notHyphen]
      exact token (ne_of_isAlpha first (by decide)) (fun _ => Token.read_letters letters ends) quiet
        rfl rfl

theorem word {name : Word} (plain : name.IsPlain) (ends : EndsName rest) :
    Reads Token.isQuiet name.text rest :=
  letters name.ne_nil plain ends

theorem sign {c : Char} (sign : c ∈ ['.', '*', '>', '+', '~']) : Reads Token.isQuiet [c] rest := by
  have notSlash : c ≠ '/' := by
    rintro rfl
    exact absurd sign (by decide)
  have quiet : ∀ c ∈ ['.', '*', '>', '+', '~'], (Token.delim c).isQuiet = true :=
    List.all_iff_forall_prop.1 (by decide)
  exact token notSlash (Token.read_sign sign) (quiet c sign) rfl rfl

theorem colon : Reads Token.isQuiet [':'] rest :=
  token (by decide) (fun _ => Token.read_punctuation rfl rest) rfl rfl rfl

theorem comma : Reads Token.isQuiet [','] rest :=
  token (by decide) (fun _ => Token.read_punctuation rfl rest) rfl rfl rfl

theorem blanks (blanks : Blanks) (ends : EndsBlanks rest) :
    Reads Token.isQuiet blanks.text rest := by
  obtain ⟨text, blank⟩ := blanks
  cases text with
  | nil => exact nil rest
  | cons c text =>
      have first := blank c List.mem_cons_self
      have read := Token.read_blanks first
        (fun other member => blank other (List.mem_cons_of_mem c member)) ends
      exact token (ne_of_isBlank first (by decide)) (fun _ => read) rfl rfl rfl

end Reads

/-! ## What follows the parts -/

theorem endsName_of_breaks {text : List Char} (breaks : Breaks text) : EndsName text := by
  intro c more same
  obtain ⟨notPart, notEscape, notCall, _⟩ := not_continues_of_isBreak (breaks c more same)
  exact ⟨notPart, notEscape, notCall⟩

theorem endsName_blanks (blanks : Blanks) {rest : List Char} (ends : EndsName rest) :
    EndsName (blanks.text ++ rest) := by
  obtain ⟨text, blank⟩ := blanks
  cases text with
  | nil => exact ends
  | cons c text =>
      have breaks : isBreak c = true := by
        rw [isBreak, blank c List.mem_cons_self]
        rfl
      exact endsName_of_breaks (breaks_cons breaks)

theorem endsBlanks_of_bareStart {text : List Char} (bare : BareStart text) (rest : List Char) :
    EndsBlanks (text ++ rest) := by
  obtain ⟨c, more, rfl, notSpace⟩ := bare
  exact endsBlanks_cons (not_isBlank_of_not_isSpace notSpace) _

/-! ## Compound selectors -/

section Selectors

variable {α : Type} {inner : α → Prop} {form : Form α}

/-- The arguments of negations are quiet in front of their parentheses. -/
def ReadsArguments (inner : α → Prop) (form : Form α) : Prop :=
  ∀ argument, inner argument → ∀ rest, Reads Token.isQuiet (form.text argument) (')' :: rest)

variable (arguments : ReadsArguments inner form)

include arguments

theorem readsQuiet_simple {simple : Simple α} (plain : simple.IsPlain inner) {rest : List Char}
    (ends : EndsName rest) : Reads Token.isQuiet (simple.text form) rest := by
  cases simple with
  | className name =>
      change Reads Token.isQuiet (['.'] ++ name.text) rest
      exact .append (.sign (by decide)) (.word plain ends)
  | id name =>
      intro noDigit offset
      obtain ⟨isId, read⟩ := Token.read_hash name.ne_nil plain ends
      exact Reads.token (by decide) (fun _ => read) rfl rfl rfl noDigit offset
  | attr test =>
      cases test with
      | compare name comparison value plainValue => exact False.elim plain
      | present name =>
          have bracket : EndsName (']' :: rest) := endsName_cons (by decide) rest
          change Reads Token.isQuiet (['['] ++ (name.text ++ [']'])) rest
          exact .block (by decide) (Token.read_punctuation rfl) rfl rfl rfl (by decide)
            (.word plain bracket)
  | pseudo mark name => exact False.elim plain
  | list mark name argument =>
      rw [Simple.text_negation plain]
      change Reads Token.isQuiet
        ([':'] ++ (['n', 'o', 't', '('] ++ (form.text argument ++ [')']))) rest
      exact .append .colon (.block (by decide) Token.read_not rfl rfl rfl (by decide)
        (arguments argument plain.2.2 rest))

theorem readsQuiet_compound {compound : Compound α} (plain : compound.IsPlain inner)
    {rest : List Char} (ends : EndsName rest) : Reads Token.isQuiet (compound.text form) rest := by
  obtain ⟨head, simples, nonempty⟩ := compound
  obtain ⟨endsHead, ofSimples⟩ := Reads.flatMap
    (fun simple member rest ends =>
      readsQuiet_simple arguments (plain.simples simple member) ends)
    (fun simple member rest _ => endsName_of_breaks (simple.breaks form rest)) ends
  refine Reads.append ?_ ofSimples
  cases head with
  | none => exact .nil _
  | some head =>
      cases head with
      | type name => exact .word (plain.head _ rfl) endsHead
      | universal => exact .sign (by decide)
      | nesting => exact False.elim (plain.head _ rfl)

omit arguments in
theorem readsQuiet_link (link : Link) (compound : Compound α) (rest : List Char) :
    Reads Token.isQuiet link.text (compound.text form ++ rest) := by
  have endsBlanks := endsBlanks_of_bareStart (compound.begins form).bareStart rest
  cases link with
  | gap blanks nonempty => exact .blanks blanks endsBlanks
  | sign before combinator explicit after =>
      have signs : ∀ c ∈ combinator.symbol, c ∈ ['.', '*', '>', '+', '~'] ∧ isBlank c = false := by
        cases combinator with
        | descendant => exact absurd rfl explicit
        | child => exact List.all_iff_forall_prop.1 (by decide)
        | nextSibling => exact List.all_iff_forall_prop.1 (by decide)
        | subsequentSibling => exact List.all_iff_forall_prop.1 (by decide)
        | deepDescendant => exact List.all_iff_forall_prop.1 (by decide)
      have ofSymbol : ∀ symbol : List Char,
          (∀ c ∈ symbol, c ∈ ['.', '*', '>', '+', '~'] ∧ isBlank c = false) →
          ∀ rest, Reads Token.isQuiet symbol rest := by
        intro symbol each rest
        induction symbol with
        | nil => exact .nil rest
        | cons c symbol inductionHypothesis =>
            have later := inductionHypothesis fun other member =>
              each other (List.mem_cons_of_mem c member)
            change Reads Token.isQuiet ([c] ++ symbol) rest
            exact .append (.sign (each c List.mem_cons_self).1) later
      have endsBefore : ∀ rest, EndsBlanks (combinator.symbol ++ rest) := by
        intro rest
        cases same : combinator.symbol with
        | nil => cases combinator <;> cases same
        | cons c symbol =>
            exact endsBlanks_cons (signs c (by rw [same]; exact List.mem_cons_self)).2 _
      refine .append (.append (.blanks before ?_) (ofSymbol _ signs _)) (.blanks after endsBlanks)
      exact endsBefore _

omit arguments in
theorem endsName_link (link : Link) (rest : List Char) : EndsName (link.text ++ rest) :=
  endsName_of_breaks (breaks_link link rest)

theorem readsQuiet_complex {complex : Complex α} (plain : complex.IsPlain inner)
    {rest : List Char} (ends : EndsName rest) : Reads Token.isQuiet (complex.text form) rest := by
  rw [Complex.text_of_isPlain plain]
  obtain ⟨endsFirst, ofMore⟩ := Reads.flatMap
    (fun pair member rest ends => Reads.append (readsQuiet_link pair.1 pair.2 rest)
      (readsQuiet_compound arguments (plain.more pair member) ends))
    (fun pair _ rest _ => by
      rw [List.append_assoc]
      exact endsName_link pair.1 _) ends
  exact .append (readsQuiet_compound arguments plain.first endsFirst) ofMore

/-! ## Lists -/

omit arguments in
private theorem endsBlanks_complex (complex : Complex α) (rest : List Char) :
    EndsBlanks (complex.text form ++ rest) :=
  endsBlanks_of_bareStart (complex.bareStart form) rest

theorem readsQuiet_listing {listing : Listing α} (plain : listing.IsPlain inner)
    {rest : List Char} (ends : EndsName rest) (endsBlanks : EndsBlanks rest) :
    Reads Token.isQuiet (listing.text form) rest := by
  obtain ⟨entries, nonempty⟩ := listing
  have ofEntry : ∀ entry ∈ entries, ∀ rest, EndsName rest → EndsBlanks rest →
      Reads Token.isQuiet (entry.text form) rest := by
    intro entry member rest ends endsBlanks
    refine .append (.append (.blanks entry.before ?_) ?_) (.blanks entry.after endsBlanks)
    · exact endsBlanks_complex entry.complex _
    · exact readsQuiet_complex arguments (plain entry member) (endsName_blanks entry.after ends)
  clear plain
  induction entries with
  | nil => exact absurd rfl nonempty
  | cons first more inductionHypothesis =>
      have here := ofEntry first List.mem_cons_self
      cases more with
      | nil =>
          rw [Listing.text_singleton]
          exact here rest ends endsBlanks
      | cons second more =>
          have later := inductionHypothesis (List.cons_ne_nil second more)
            fun entry member => ofEntry entry (List.mem_cons_of_mem first member)
          rw [Listing.text_cons_cons]
          refine .append (here _ ?_ ?_) (.append .comma later)
          · exact endsName_cons (by decide) _
          · exact endsBlanks_cons (by decide) _

theorem readsQuiet_prelude {prelude_ : Prelude α} (plain : prelude_.IsPlain inner)
    {rest : List Char} (ends : EndsName rest) : Reads Token.isQuiet (prelude_.text form) rest := by
  have ofMore : ∀ pair ∈ prelude_.more, pair.2.IsPlain inner :=
    fun pair member => plain _ (List.mem_cons_of_mem _ (List.mem_map_of_mem member))
  obtain ⟨endsFirst, later⟩ := Reads.flatMap
    (fun pair member rest ends => Reads.append
      (Reads.append (Reads.blanks pair.1.before (endsBlanks_cons (by decide) _))
        (Reads.append Reads.comma
          (Reads.blanks pair.1.after (endsBlanks_complex pair.2 rest))))
      (readsQuiet_complex arguments (ofMore pair member) ends))
    (fun pair _ rest _ => by
      rw [List.append_assoc, List.append_assoc]
      exact endsName_blanks pair.1.before (endsName_cons (by decide) _)) ends
  exact .append (readsQuiet_complex arguments (plain _ List.mem_cons_self) endsFirst) later

end Selectors

theorem readsArguments (levels : Nat) :
    ReadsArguments (Argument.IsPlain levels) (Argument.form levels) := by
  induction levels with
  | zero => exact fun argument => argument.elim
  | succ levels inductionHypothesis =>
      intro listing plain rest
      exact readsQuiet_listing inductionHypothesis plain (endsName_cons (by decide) rest)
        (endsBlanks_cons (by decide) rest)

end CssLint.Sheet
