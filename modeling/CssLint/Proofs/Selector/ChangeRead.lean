import CssLint.Proofs.Selector.ChangeText

/-!
# Simple selectors of changed texts

On a text whose escapes spare a change, simple selectors are read as they were
without it, and what is read is changed like the text.  The reader also still fails
where it failed, unless the tail closes what was left open.
-/

namespace CssLint.Selector

open Text CssLint.Name

/-! ## Changed nodes -/

def Kind.mapTexts (change : List Char → List Char) : Kind → Kind
  | .pseudo name => .pseudo (change name)
  | .attribute test => .attribute (test.mapTexts change)
  | kind => kind

mutual

/-- The tree with all its texts changed. -/
def Node.mapTexts (change : List Char → List Char) : Node → Node
  | ⟨kind, text, children⟩ =>
    ⟨kind.mapTexts change, change text, mapTextsEach change children⟩

/-- The trees with all their texts changed. -/
def mapTextsEach (change : List Char → List Char) : List Node → List Node
  | [] => []
  | node :: nodes => node.mapTexts change :: mapTextsEach change nodes

end

theorem mapTextsEach_eq_map (change : List Char → List Char) (nodes : List Node) :
    mapTextsEach change nodes = nodes.map (Node.mapTexts change) := by
  induction nodes with
  | nil => rfl
  | cons node nodes inductionHypothesis => rw [mapTextsEach, inductionHypothesis, List.map_cons]

@[simp] theorem Node.mapTexts_mk (change : List Char → List Char) (kind : Kind)
    (text : List Char) (children : List Node) :
    (⟨kind, text, children⟩ : Node).mapTexts change =
      ⟨kind.mapTexts change, change text, children.map (Node.mapTexts change)⟩ := by
  rw [Node.mapTexts, mapTextsEach_eq_map]

mutual

theorem Node.mapTexts_id : (node : Node) → node.mapTexts id = node
  | ⟨kind, text, children⟩ => by
      have ofTest : ∀ test : AttributeTest, test.mapTexts id = test := by rintro (_ | _) <;> rfl
      have same : kind.mapTexts id = kind := by
        cases kind <;> first | rfl | exact congrArg _ (ofTest _)
      rw [Node.mapTexts, mapTextsEach_id children, same]
      rfl

theorem mapTextsEach_id : (nodes : List Node) → mapTextsEach id nodes = nodes
  | [] => rfl
  | node :: nodes => by rw [mapTextsEach, node.mapTexts_id, mapTextsEach_id nodes]

end

/-! ## Readings that are followed -/

/-- Whether the fault is a comment that never closes. -/
def Fault.isComment {Place : Type} : Fault Place → Bool
  | .unclosed .comment _ => true
  | _ => false

theorem Fault.isComment_mapPlace {Place Target : Type} (change : Place → Target)
    (fault : Fault Place) : (fault.mapPlace change).isComment = fault.isComment := by
  cases fault with
  | unclosed opened place => cases opened <;> rfl
  | _ => rfl

/-- A tail that closes nothing, and that every entry may have at its end. -/
structure Change.Quiet (change : Change) : Prop where
  silent : change.Silent
  ends : ∀ (inner : Option ListReader) (nested : Bool) (last : Last) (spaced : Bool),
    ∃ more, readItems inner nested last spaced change.tail = (endEntry last []).prepend more

/-- The changed text is read like the original, and what is left of it is left by the change. -/
def Change.Follows {α : Type} (change : Change) (map : α → α) (original changed : Reading α) :
    Prop :=
  match original with
  | .ok (item, rest) => changed = .ok (map item, change.apply rest) ∧ change.Spares rest
  | .error fault => change.Quiet → (change.EndsNoComment ∨ fault.isComment = false) →
      changed.isOk = false

variable {change : Change}

/-! ## Simple selectors -/

section Simple

variable {text start rest : List Char}

theorem leafBefore_apply (kind : Kind) (suffix : rest <:+ start) :
    leafBefore (kind.mapTexts change.expand) (change.apply start) (change.apply rest) =
      ((leafBefore kind start rest).1.mapTexts change.expand,
        change.apply (leafBefore kind start rest).2) := by
  rw [leafBefore, leafBefore, before_apply suffix, Node.leaf, Node.leaf, Node.mapTexts_mk]
  rfl

theorem readQualified_apply (spares : change.Spares text) (suffix : text <:+ start) :
    change.Follows (Node.mapTexts change.expand) (readQualified start text)
      (readQualified (change.apply start) (change.apply text)) := by
  unfold readQualified
  rw [after?_apply (List.all_iff_forall_prop.1 (by decide)), Name.starts_apply spares]
  cases found : after? ['*'] text with
  | some rest =>
      have split_ := eq_append_of_after? found
      refine ⟨congrArg Except.ok (leafBefore_apply .universal ?_), ?_⟩
      · exact (suffix_of_after? found).trans suffix
      · exact .after (by decide) (split_ ▸ spares)
  | none =>
      by_cases begins : Name.starts text = true
      · simp only [Option.map_none, begins, if_true]
        obtain ⟨same, spared⟩ := Name.drop_apply spares
        rw [same]
        have left := (Name.suffix_drop text).trans suffix
        exact ⟨congrArg Except.ok (leafBefore_apply .tag left), spared⟩
      · simp only [Option.map_none, begins, Bool.false_eq_true, if_false]
        exact fun _ _ => rfl

theorem head?_apply {c : Char} (notBlank : isBlank c = false) (text : List Char) :
    ((change.apply text).head? == some c) = (text.head? == some c) := by
  have other : ∀ {text : List Char}, Stops text → (text.head? == some c) = false := by
    intro text stops
    refine beq_false_of_ne fun same => ?_
    rw [stops c (by rw [same]; rfl)] at notBlank
    cases notBlank
  rcases stops_or_cons text with stops | ⟨d, more, rfl, notBlank⟩
  · rw [other stops, other (change.stops_apply stops)]
  · rw [change.apply_cons (ne_feed_of_not_isBlank notBlank)]
    rfl

theorem startsNamespaceBar_eq (text : List Char) :
    startsNamespaceBar text =
      (text.head? == some '|' && !(text.tail.head? == some '=') &&
        !(text.tail.head? == some '|')) := by
  unfold startsNamespaceBar
  split
  · rfl
  · rfl
  · rename_i more notEquals notBar
    cases more with
    | nil => rfl
    | cons c more =>
        have noEquals : c ≠ '=' := fun same => notEquals more (by rw [same])
        have noBar : c ≠ '|' := fun same => notBar more (by rw [same])
        simp [noEquals, noBar]
  · rename_i noBar
    cases text with
    | nil => rfl
    | cons c more =>
        have other : c ≠ '|' := fun same => noBar more (by rw [same])
        simp [other]

theorem exists_cons_of_startsNamespaceBar (bar : startsNamespaceBar text = true) :
    ∃ more, text = '|' :: more := by
  unfold startsNamespaceBar at bar
  split at bar
  · cases bar
  · cases bar
  · exact ⟨_, rfl⟩
  · cases bar

theorem startsNamespaceBar_apply (text : List Char) :
    startsNamespaceBar (change.apply text) = startsNamespaceBar text := by
  rw [startsNamespaceBar_eq, startsNamespaceBar_eq, head?_apply (by decide)]
  by_cases bar : text.head? = some '|'
  · cases text with
    | nil => cases bar
    | cons c more =>
        cases bar
        rw [change.apply_cons (by decide), List.tail_cons, List.tail_cons, head?_apply (by decide),
          head?_apply (by decide)]
  · rw [beq_false_of_ne bar]
    rfl

theorem readTypeEnd_apply {kind : Kind} (plain : kind.mapTexts change.expand = kind)
    (spares : change.Spares text) (suffix : text <:+ start) :
    change.Follows (Node.mapTexts change.expand) (readTypeEnd kind start text)
      (readTypeEnd kind (change.apply start) (change.apply text)) := by
  unfold readTypeEnd
  rw [startsNamespaceBar_apply]
  by_cases bar : startsNamespaceBar text = true
  · obtain ⟨more, rfl⟩ := exists_cons_of_startsNamespaceBar bar
    rw [if_pos bar, if_pos bar, change.apply_cons (by decide), List.drop_one, List.drop_one,
      List.tail_cons, List.tail_cons]
    exact readQualified_apply (spares.behind (by decide)) ((List.suffix_cons _ _).trans suffix)
  · have leaf := @leafBefore_apply change start text kind suffix
    rw [plain] at leaf
    rw [if_neg bar, if_neg bar]
    exact ⟨congrArg Except.ok leaf, spares⟩

/-- An attribute test ends with its closing bracket. -/
theorem eq_append_of_attributeEnd (closed : attributeEnd start text = .ok rest) :
    ∃ body, text = body ++ ']' :: rest := by
  fun_induction attributeEnd start text with
  | case1 => cases closed
  | case2 text =>
      cases closed
      exact ⟨[], rfl⟩
  | case3 => cases closed
  | case4 c text _ _ behind found inductionHypothesis =>
      obtain ⟨front, rfl⟩ := suffix_of_stringEnd? found
      obtain ⟨body, rfl⟩ := inductionHypothesis closed
      exact ⟨c :: (front ++ body), by simp⟩
  | case5 text _ _ inductionHypothesis =>
      obtain ⟨body, split_⟩ := inductionHypothesis closed
      refine ⟨'\\' :: (text.take 1 ++ body), ?_⟩
      rw [List.cons_append, List.append_assoc, ← split_, List.take_append_drop]
  | case6 c text _ _ _ inductionHypothesis =>
      obtain ⟨body, rfl⟩ := inductionHypothesis closed
      exact ⟨c :: body, rfl⟩

private theorem eq_ok_of_toOption {α β : Type} {result : Except α β} {value : β}
    (same : result.toOption = some value) : result = .ok value := by
  cases result with
  | error => cases same
  | ok other => exact congrArg Except.ok (Option.some.inj same)

private theorem isOk_of_toOption {α β : Type} {result : Except α β}
    (none : result.toOption = none) : result.isOk = false := by
  cases result with
  | error => rfl
  | ok other => cases none

theorem readAttribute_apply {inside : List Char} (spares : change.Spares ('[' :: inside)) :
    change.Follows (Node.mapTexts change.expand) (readAttribute ('[' :: inside))
      (readAttribute (change.apply ('[' :: inside))) := by
  have ofEnd := attributeEnd_apply ('[' :: inside) (change.apply ('[' :: inside))
    (spares.behind (by decide))
  have inner : (change.apply ('[' :: inside)).drop 1 = change.apply inside := by
    rw [change.apply_cons (by decide)]
    rfl
  unfold readAttribute
  rw [inner, List.drop_one, List.tail_cons]
  cases closed : attributeEnd ('[' :: inside) inside with
  | error fault =>
      rw [closed] at ofEnd
      intro quiet _
      have fails := isOk_of_toOption (ofEnd quiet.silent)
      cases changed : attributeEnd (change.apply ('[' :: inside)) (change.apply inside) with
      | error _ => rfl
      | ok _ =>
          rw [changed] at fails
          cases fails
  | ok rest =>
      rw [closed] at ofEnd
      obtain ⟨same, spared⟩ := ofEnd
      rw [eq_ok_of_toOption same]
      obtain ⟨body, rfl⟩ := eq_append_of_attributeEnd closed
      have whole : '[' :: (body ++ ']' :: rest) = ('[' :: body ++ [']']) ++ rest := by simp
      have written : before ('[' :: (body ++ ']' :: rest)) rest = '[' :: body ++ [']'] := by
        rw [whole, before_append]
      have framed : change.expand ('[' :: body ++ [']']) = '[' :: change.expand body ++ [']'] := by
        rw [change.expand_append, ← List.singleton_append, change.expand_append,
          change.expand_singleton (by decide), change.expand_singleton (by decide)]
        rfl
      have changed : before (change.apply ('[' :: (body ++ ']' :: rest))) (change.apply rest) =
          '[' :: change.expand body ++ [']'] := by
        rw [before_apply ⟨_, whole.symm⟩, written, framed]
      have trimmed : ∀ body : List Char, (('[' :: body ++ [']']).drop 1).dropLast = body := by
        intro body
        simp
      dsimp only
      rw [written, changed, trimmed, trimmed, AttributeTest.ofBody?_expand]
      cases AttributeTest.ofBody? body with
      | none => exact fun _ _ => rfl
      | some test =>
          refine ⟨?_, spared⟩
          rw [Node.leaf, Node.mapTexts_mk, framed]
          rfl

/-! ## Arguments -/

/-- A reading of a list inside parentheses, which is followed as far as something is left to close
them. -/
def Change.FollowsInside (change : Change) (original changed : Reading (List Node)) : Prop :=
  match original with
  | .ok (_, []) => change.Quiet → ∀ entries rest, changed = .ok (entries, rest) → rest = []
  | .ok (entries, c :: rest) =>
      changed = .ok (entries.map (Node.mapTexts change.expand), change.apply (c :: rest)) ∧
        change.Spares (c :: rest)
  | .error fault => change.Quiet → (change.EndsNoComment ∨ fault.isComment = false) →
      changed.isOk = false

/-- A reader of lists follows a change, and passes over blanks in front of a list. -/
structure ListReader.Follows (reader : ListReader) (change : Change) : Prop where
  read : ∀ text, change.Spares text →
    change.FollowsInside (reader.read text) (reader.read (change.apply text))
  blanks : ∀ text, reader.read (text.dropWhile isBlank) = reader.read text
  suffix : ∀ {text rest : List Char} {entries : List Node},
    reader.read text = .ok (entries, rest) → rest <:+ text

variable {inner : Option ListReader}
  (inside : ∀ reader, inner = some reader → reader.Follows change)

/-- A parenthesis that closes behind blanks is none of the tail. -/
private theorem after?_dropWhile_apply (text : List Char)
    (closes : change.Silent ∨ text.dropWhile isBlank ≠ []) :
    after? [')'] ((change.apply text).dropWhile isBlank) =
      (after? [')'] (text.dropWhile isBlank)).map change.apply := by
  rw [dropWhile_apply]
  by_cases allBlank : text.dropWhile isBlank = []
  · rw [if_pos allBlank, allBlank]
    have silent := closes.resolve_right fun some => some allBlank
    cases found : after? [')'] (change.tail.dropWhile isBlank) with
    | none => rfl
    | some rest =>
        have member : ')' ∈ change.tail.dropWhile isBlank := by
          rw [eq_append_of_after? found]
          exact List.mem_cons_self
        exact absurd ((List.dropWhile_sublist isBlank).mem member) (silent ')' (by simp))
  · rw [if_neg allBlank]
    exact after?_apply (List.all_iff_forall_prop.1 (by decide)) _

private theorem readArgument_opaque_apply {inner : Option ListReader}
    {name opening opening' : List Char} (spares : change.Spares text) (suffix : text <:+ start) :
    change.Follows (Node.mapTexts change.expand)
      (readArgument inner false name start opening text)
      (readArgument inner false (change.expand name) (change.apply start) opening'
        (change.apply text)) := by
  unfold readArgument
  simp only [Bool.false_eq_true, if_false]
  have ofEnd := parenthesisEnd_apply opening opening' 0 spares
  cases closed : parenthesisEnd opening 0 text with
  | error fault =>
      rw [closed] at ofEnd
      intro quiet _
      have fails := isOk_of_toOption (ofEnd quiet.silent)
      cases changed : parenthesisEnd opening' 0 (change.apply text) with
      | error _ => rfl
      | ok _ =>
          rw [changed] at fails
          cases fails
  | ok rest =>
      rw [closed] at ofEnd
      obtain ⟨same, spared⟩ := ofEnd
      rw [eq_ok_of_toOption same]
      have left := (suffix_of_parenthesisEnd closed).trans suffix
      exact ⟨congrArg Except.ok (leafBefore_apply (.pseudo name) left), spared⟩

theorem takesList_expand (name : List Char) :
    takesList (change.expand name) = takesList name := by
  by_cases feed : '\n' ∈ name
  · have other : ∀ {name : List Char}, '\n' ∈ name → takesList name = false := by
      intro name member
      have plain : ∀ known ∈ listPseudos.map String.toList, '\n' ∉ known := by decide
      rw [takesList, List.contains_eq_mem, decide_eq_false_iff_not]
      exact fun known => plain _ known (List.mem_map.2 ⟨'\n', member, rfl⟩)
    rw [other feed, other (change.mem_expand feed)]
  · rw [change.expand_of_not_mem feed]

/-- A name behind a sign of one character. -/
private theorem leafBefore_drop_apply (kind : Kind) {c : Char} {behind : List Char}
    (spares : change.Spares behind) :
    change.Follows (Node.mapTexts change.expand)
      (.ok (leafBefore kind (c :: behind) (Name.drop behind)))
      (.ok (leafBefore (kind.mapTexts change.expand) (change.apply (c :: behind))
        (Name.drop (change.apply behind)))) := by
  obtain ⟨same, spared⟩ := Name.drop_apply spares
  rw [same]
  have left := (Name.suffix_drop behind).trans (List.suffix_cons c behind)
  exact ⟨congrArg Except.ok (leafBefore_apply kind left), spared⟩

/-- Something of a text is read exactly when something of the changed text is. -/
private theorem apply_eq_iff (suffix : rest <:+ text) :
    change.apply rest = change.apply text ↔ rest = text := by
  refine ⟨fun same => ?_, fun same => by rw [same]⟩
  obtain ⟨front, rfl⟩ := suffix
  rw [change.apply_append] at same
  have none := List.self_eq_append_left.1 same
  have noFront : front = [] :=
    List.isEmpty_iff.1 (by rw [← change.isEmpty_expand front, none]; rfl)
  rw [noFront, List.nil_append]

include inside

private theorem readArgument_list_apply {name opening opening' : List Char}
    (spares : change.Spares text) (suffix : text <:+ start) :
    change.Follows (Node.mapTexts change.expand)
      (readArgument inner true name start opening text)
      (readArgument inner true (change.expand name) (change.apply start) opening'
        (change.apply text)) := by
  have ofBlanks : text.dropWhile isBlank <:+ text := List.dropWhile_suffix isBlank
  have sparedBlanks := spares.blanks
  unfold readArgument
  simp only [if_true]
  cases found : after? [')'] (text.dropWhile isBlank) with
  | some rest =>
      have split_ := eq_append_of_after? found
      have some : text.dropWhile isBlank ≠ [] := by rw [split_]; simp
      rw [after?_dropWhile_apply text (Or.inr some), found]
      have left := ((suffix_of_after? found).trans ofBlanks).trans suffix
      rw [split_] at sparedBlanks
      exact ⟨congrArg Except.ok (leafBefore_apply (.pseudo name) left),
        sparedBlanks.behind (by decide)⟩
  | none =>
      have ends : change.Silent → after? [')'] ((change.apply text).dropWhile isBlank) = none :=
        fun silent => by rw [after?_dropWhile_apply text (Or.inl silent), found]; rfl
      cases inner with
      | none =>
          intro quiet _
          rw [ends quiet.silent]
          rfl
      | some reader =>
          obtain ⟨reads, blanks, suffixes⟩ := inside reader rfl
          have follows := reads text spares
          dsimp only
          rw [blanks, blanks]
          cases read : reader.read text with
          | error fault =>
              rw [read] at follows
              intro quiet comment
              have fails := follows quiet comment
              rw [ends quiet.silent]
              dsimp only
              cases changed : reader.read (change.apply text) with
              | error _ => rfl
              | ok _ =>
                  rw [changed] at fails
                  cases fails
          | ok result =>
              obtain ⟨entries, left⟩ := result
              rw [read] at follows
              cases left with
              | nil =>
                  intro quiet comment
                  rw [ends quiet.silent]
                  dsimp only
                  cases changed : reader.read (change.apply text) with
                  | error _ => rfl
                  | ok result =>
                      obtain ⟨entries', left'⟩ := result
                      obtain rfl := follows quiet entries' left' changed
                      rfl
              | cons c left =>
                  obtain ⟨same, spared⟩ := follows
                  have some : text.dropWhile isBlank ≠ [] := by
                    intro none
                    have fewer := (suffixes ((blanks text).trans read)).length_le
                    rw [none] at fewer
                    exact absurd fewer (by simp)
                  rw [after?_dropWhile_apply text (Or.inr some), found, same]
                  dsimp only [Option.map_none]
                  rw [after?_apply (List.all_iff_forall_prop.1 (by decide))]
                  cases closes : after? [')'] (c :: left) with
                  | none => exact fun _ _ => rfl
                  | some rest =>
                      have split_ := eq_append_of_after? closes
                      have whole : rest <:+ start :=
                        ((suffix_of_after? closes).trans (suffixes read)).trans suffix
                      rw [split_] at spared
                      refine ⟨?_, spared.behind (by decide)⟩
                      dsimp only [Option.map_some]
                      rw [before_apply whole, Node.mapTexts_mk]
                      rfl

private theorem readArgument_apply {listed : Bool} {name opening opening' : List Char}
    (spares : change.Spares text) (suffix : text <:+ start) :
    change.Follows (Node.mapTexts change.expand)
      (readArgument inner listed name start opening text)
      (readArgument inner listed (change.expand name) (change.apply start) opening'
        (change.apply text)) := by
  cases listed with
  | false => exact readArgument_opaque_apply spares suffix
  | true => exact readArgument_list_apply inside spares suffix

theorem readPseudo_apply {behind : List Char} (spares : change.Spares (':' :: behind)) :
    change.Follows (Node.mapTexts change.expand) (readPseudo inner (':' :: behind))
      (readPseudo inner (change.apply (':' :: behind))) := by
  have double : (after? [':', ':'] (change.apply (':' :: behind))).isSome =
      (after? [':', ':'] (':' :: behind)).isSome := by
    rw [after?_apply (List.all_iff_forall_prop.1 (by decide)), Option.isSome_map]
  have marked : ∀ mark,
      (if (after? [':', ':'] (':' :: behind)).isSome then [':', ':'] else [':']) = mark →
      (change.apply (':' :: behind)).drop mark.length =
          change.apply ((':' :: behind).drop mark.length) ∧
        change.Spares ((':' :: behind).drop mark.length) ∧
        (':' :: behind).drop mark.length <:+ ':' :: behind := by
    rintro mark rfl
    rw [change.apply_cons (by decide)]
    split
    · rename_i twice
      obtain ⟨more, found⟩ := Option.isSome_iff_exists.1 twice
      obtain rfl : behind = ':' :: more := (List.cons.inj (eq_append_of_after? found)).2
      rw [change.apply_cons (by decide)]
      exact ⟨rfl, (spares.behind (by decide)).behind (by decide), List.drop_suffix 2 _⟩
    · exact ⟨rfl, spares.behind (by decide), List.drop_suffix 1 _⟩
  simp only [readPseudo, double]
  generalize chosen : (if (after? [':', ':'] (':' :: behind)).isSome = true then [':', ':']
    else [':']) = mark
  obtain ⟨same, spared, ofNamed⟩ := marked mark chosen
  rw [same]
  generalize (':' :: behind).drop mark.length = named at spared ofNamed ⊢
  obtain ⟨ofDrop, sparedRest⟩ := Name.drop_apply spared
  have ofRest := Name.suffix_drop named
  rw [Name.starts_apply spared, ofDrop]
  generalize Name.drop named = rest at sparedRest ofRest ⊢
  rw [before_apply ofRest, before_apply (ofRest.trans ofNamed),
    after?_apply (List.all_iff_forall_prop.1 (by decide))]
  by_cases begins : Name.starts named = true
  · rw [if_pos begins, if_pos begins]
    cases found : after? ['('] rest with
    | none =>
        refine ⟨?_, sparedRest⟩
        dsimp only [Option.map_none]
        rw [Node.leaf, Node.leaf, Node.mapTexts_mk]
        rfl
    | some argument =>
        rw [eq_append_of_after? found] at sparedRest
        have ofArgument := ((suffix_of_after? found).trans ofRest).trans ofNamed
        dsimp only [Option.map_some]
        rw [takesList_expand]
        exact readArgument_apply inside (sparedRest.behind (by decide)) ofArgument
  · rw [if_neg begins, if_neg begins]
    exact fun _ _ => rfl

theorem readSimple_apply {c : Char} {behind : List Char} (notBlank : ¬isBlank c = true)
    (spares : change.Spares (c :: behind)) :
    change.Follows (Node.mapTexts change.expand) (readSimple inner c behind)
      (readSimple inner c (change.apply behind)) := by
  have whole : change.apply (c :: behind) = c :: change.apply behind :=
    change.apply_cons (ne_feed_of_not_isBlank notBlank) behind
  have fails : ∀ {fault : Fault (List Char)} {other : Fault (List Char)},
      change.Follows (Node.mapTexts change.expand) (.error fault) (.error other) :=
    fun _ _ => rfl
  have ofTail := List.suffix_cons c behind
  simp only [readSimple]
  rw [← whole]
  split
  · rename_i dot
    have spared := spares.behind (by rw [dot]; decide)
    rw [Name.starts_apply spared]
    split
    · exact leafBefore_drop_apply .className spared
    · exact fails
  split
  · rename_i hash
    have spared := spares.behind (by rw [hash]; decide)
    simp only [(Name.drop_apply spared).1, ne_eq, apply_eq_iff (Name.suffix_drop behind)]
    split
    · rw [← (Name.drop_apply spared).1]
      exact leafBefore_drop_apply .id spared
    · exact fails
  split
  · rename_i star
    exact readTypeEnd_apply rfl (spares.behind (by rw [star]; decide)) ofTail
  split
  · rename_i bar
    exact readQualified_apply (spares.behind (by rw [bar]; decide)) ofTail
  split
  · rename_i ampersand
    exact ⟨congrArg Except.ok (leafBefore_apply .nesting ofTail),
      spares.behind (by rw [ampersand]; decide)⟩
  split
  · rename_i bracket
    subst bracket
    exact readAttribute_apply spares
  split
  · rename_i colon
    subst colon
    exact readPseudo_apply inside spares
  split
  · rename_i quotes
    have other : c ≠ '\\' := by rcases quote_cases quotes with rfl | rfl <;> decide
    have ofString := stringEnd?_apply (quote_cases quotes) (spares.behind other)
    cases found : stringEnd? c behind with
    | none =>
        rw [found] at ofString
        intro quiet _
        rw [ofString quiet.silent]
        rfl
    | some rest =>
        rw [found] at ofString
        rw [ofString.1]
        have left := (suffix_of_stringEnd? found).trans ofTail
        exact ⟨congrArg Except.ok (leafBefore_apply .string left), ofString.2⟩
  · rw [Name.starts_apply spares]
    split
    · obtain ⟨same, spared⟩ := Name.drop_apply spares
      rw [same]
      exact readTypeEnd_apply rfl spared (Name.suffix_drop _)
    · exact fails

end Simple

end CssLint.Selector
