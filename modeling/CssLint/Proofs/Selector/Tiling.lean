import CssLint.Proofs.Selector.Accepted
import CssLint.Proofs.Text.Trim

/-!
# Accepted selectors lose nothing

An accepted text is its entries with commas between them, and an entry is its
children with blank characters between them: tiles, each of which has a gap in
front.  Only descendant combinators have no tile.  They are exactly the gaps between
two simple selectors, no matter whether comments stand in the gap.
-/

namespace CssLint.Selector

open Text Written

/-! ## Tiles -/

/-- A child of an entry, and the blank characters in front of it. -/
structure Tile where
  gap : List Char
  node : Node

def Tile.text (tile : Tile) : List Char :=
  tile.gap ++ tile.node.text

/-- Whether blank characters divide a simple selector from a simple selector in front of it; the
tiles in front begin with the nearest, and comments among them do not count. -/
def separated (front : List Tile) (tile : Tile) : Bool :=
  tile.node.isSimple &&
    (front.find? fun last => !last.node.isComment).any (·.node.isSimple) &&
    (tile :: front.takeWhile (·.node.isComment)).any (!·.gap.isEmpty)

/-- The children of an entry with these tiles, behind the tiles in front: descendant combinators
stand before the tiles that are separated, and nowhere else. -/
def weave (front : List Tile) : List Tile → List Node
  | [] => []
  | tile :: tiles =>
      (if separated front tile then [combinatorNode .descendant, tile.node] else [tile.node]) ++
        weave (tile :: front) tiles

mutual

/-- A child of an entry that keeps all of its text: what has no children, and a list in parentheses
behind its name. -/
inductive Kept : Node → Prop
  | leaf {kind : Kind} {text : List Char} (noGap : kind ≠ .combinator .descendant) :
      Kept (Node.leaf kind text)
  | listing {name : List Char} {entries : List Node} {segments : List (List Char)}
      (tiled : List.Forall₂ TiledBy entries segments) :
      Kept ⟨.pseudo name, name ++ '(' :: ([','].intercalate segments ++ [')']), entries⟩

/-- An entry and the segment of the text that its tiles and the blanks at its end make up. -/
inductive TiledBy : Node → List Char → Prop
  | mk {tiles : List Tile} {final : List Char} (kept : ∀ tile ∈ tiles, Kept tile.node)
      (blank : ∀ tile ∈ tiles, ∀ c ∈ tile.gap, isBlank c = true)
      (blankEnd : ∀ c ∈ final, isBlank c = true) :
      TiledBy ⟨.selector, trim (tiles.flatMap Tile.text ++ final), weave [] tiles⟩
        (tiles.flatMap Tile.text ++ final)

end

/-! ## Items -/

/-- What the reader of items knows about the tiles in front and the blanks behind them: whether a
simple selector stands last, and if so, whether blanks have followed it. -/
structure Fits (last : Last) (spaced : Bool) (front : List Tile) (pending : List Char) : Prop where
  simple : (front.find? fun last => !last.node.isComment).any (·.node.isSimple) =
    decide (last = .compound)
  spaced : last = .compound →
    spaced = (!pending.isEmpty || (front.takeWhile (·.node.isComment)).any (!·.gap.isEmpty))

theorem Fits.start (pending : List Char) : Fits .nothing false [] pending :=
  ⟨rfl, fun compound => nomatch compound⟩

theorem Fits.separated {last : Last} {spaced : Bool} {front : List Tile} {pending : List Char}
    (fits : Fits last spaced front pending) {node : Node} (simple : node.isSimple = true) :
    separated front ⟨pending, node⟩ = (decide (last = .compound) && spaced) := by
  rw [Selector.separated, simple, fits.simple, Bool.true_and, List.any_cons]
  by_cases compound : last = .compound
  · rw [fits.spaced compound]
  · simp [compound]

theorem separated_of_not_isSimple {tile : Tile} (notSimple : tile.node.isSimple = false)
    (front : List Tile) : separated front tile = false := by
  rw [separated, notSimple, Bool.false_and, Bool.false_and]

theorem Fits.blank {last : Last} {spaced : Bool} {front : List Tile} {pending : List Char}
    (fits : Fits last spaced front pending) (c : Char) : Fits last true front (pending ++ [c]) :=
  ⟨fits.simple, fun _ => by simp⟩

theorem Fits.comment {last : Last} {spaced : Bool} {front : List Tile} {pending : List Char}
    (fits : Fits last spaced front pending) {node : Node} (comment : node.isComment = true) :
    Fits last spaced (⟨pending, node⟩ :: front) [] := by
  constructor
  · rw [List.find?_cons_of_neg (by simp [comment]), fits.simple]
  · intro compound
    rw [fits.spaced compound, List.takeWhile_cons, comment, if_pos rfl, List.any_cons]
    rfl

theorem fits_combinator (combinator : Combinator) (spaced : Bool) (front : List Tile)
    (pending : List Char) :
    Fits (.combinator combinator) spaced (⟨pending, combinatorNode combinator⟩ :: front) [] :=
  ⟨rfl, fun compound => nomatch compound⟩

theorem not_isComment_of_isSimple {node : Node} (simple : node.isSimple = true) :
    node.isComment = false := by
  obtain ⟨kind, text, children⟩ := node
  cases kind <;> first | rfl | cases simple

theorem fits_compound {node : Node} (simple : node.isSimple = true) (front : List Tile)
    (pending : List Char) : Fits .compound false (⟨pending, node⟩ :: front) [] := by
  have noComment := not_isComment_of_isSimple simple
  constructor
  · rw [List.find?_cons_of_pos (by simp [noComment])]
    exact simple
  · intro _
    rw [List.takeWhile_cons_of_neg (by simp [noComment])]
    rfl

/-- The text is tiles behind those in front, then blanks and the rest, and the nodes are those of
the tiles. -/
def TiledFrom (front : List Tile) (text : List Char) (nodes : List Node) (rest : List Char) :
    Prop :=
  ∃ tiles final, text = tiles.flatMap Tile.text ++ final ++ rest ∧ nodes = weave front tiles ∧
    (∀ tile ∈ tiles, Kept tile.node) ∧ (∀ tile ∈ tiles, ∀ c ∈ tile.gap, isBlank c = true) ∧
    ∀ c ∈ final, isBlank c = true

theorem TiledFrom.blanks {front : List Tile} {final : List Char}
    (blank : ∀ c ∈ final, isBlank c = true) (rest : List Char) :
    TiledFrom front (final ++ rest) [] rest :=
  ⟨[], final, rfl, rfl, by simp, by simp, blank⟩

theorem TiledFrom.cons {front : List Tile} (tile : Tile) {text rest : List Char}
    {nodes : List Node} (kept : Kept tile.node) (blank : ∀ c ∈ tile.gap, isBlank c = true)
    (later : TiledFrom (tile :: front) text nodes rest) :
    TiledFrom front (tile.text ++ text)
      ((if separated front tile then [combinatorNode .descendant, tile.node] else [tile.node]) ++
        nodes) rest := by
  obtain ⟨tiles, final, joined, woven, keptLater, blankLater, blankEnd⟩ := later
  refine ⟨tile :: tiles, final, ?_, ?_, List.forall_mem_cons.2 ⟨kept, keptLater⟩,
    List.forall_mem_cons.2 ⟨blank, blankLater⟩, blankEnd⟩
  · simp [joined]
  · rw [woven, weave]

/-- A tile that is no simple selector has no descendant combinator in front. -/
theorem TiledFrom.consOther {front : List Tile} {pending text rest : List Char} {node : Node}
    {nodes : List Node} (notSimple : node.isSimple = false) (kept : Kept node)
    (blank : ∀ c ∈ pending, isBlank c = true)
    (later : TiledFrom (⟨pending, node⟩ :: front) text nodes rest) :
    TiledFrom front (pending ++ (node.text ++ text)) (node :: nodes) rest := by
  have tiled := TiledFrom.cons ⟨pending, node⟩ kept blank later
  rwa [separated_of_not_isSimple notSimple, Tile.text, List.append_assoc] at tiled

/-- The segments of a list, whose text is what stands between their commas. -/
def Segmented (text : List Char) (entries : List Node) (rest : List Char) : Prop :=
  ∃ segments, segments ≠ [] ∧ text = [','].intercalate segments ++ rest ∧
    List.Forall₂ TiledBy entries segments

section Levels

/-! The induction is on the levels: the argument of a list is read one level further inside. -/

variable {levels : Nat}
  (deeper : ∀ lower, levels = lower + 1 → ∀ {text rest : List Char} {entries : List Node},
    ListAt (argumentReader lower) true text entries rest → Segmented text entries rest)

include deeper

theorem SimpleAt.kept {text rest : List Char} {node : Node}
    (simple : SimpleAt (argumentReader levels) text node rest) :
    node.isSimple = true ∧ Kept node ∧ text = node.text ++ rest := by
  cases simple with
  | leaf simple split_ =>
      refine ⟨simple, .leaf ?_, split_⟩
      rintro rfl
      cases simple
  | @list reader mark name blanks argument _ entries reads colons listed blank read split_ =>
      obtain ⟨lower, rfl, list⟩ := listAt_of_argumentReader reads read
      obtain ⟨segments, -, joined, tiled⟩ := deeper lower rfl (list.blanks blank)
      have written : text =
          (mark ++ name ++ '(' :: ([','].intercalate segments ++ [')'])) ++ rest := by
        rw [split_, joined]
        simp
      refine ⟨rfl, ?_, ?_⟩
      · rw [written, before_append]
        exact .listing tiled
      · rw [written, before_append]

/-- The items of an entry behind the tiles in front are further tiles. -/
theorem ItemsAt.tiled {nested spaced : Bool} {last : Last} {text rest : List Char}
    {nodes : List Node}
    (items : ItemsAt (argumentReader levels) nested last spaced text nodes rest)
    {front : List Tile} {pending : List Char} (fits : Fits last spaced front pending)
    (blankFront : ∀ c ∈ pending, isBlank c = true) :
    TiledFrom front (pending ++ text) nodes rest := by
  have noBlank : ∀ c ∈ ([] : List Char), isBlank c = true := fun _ member => nomatch member
  induction items generalizing front pending with
  | stop => exact .blanks blankFront _
  | @blank last spaced c text rest nodes blank _ inductionHypothesis =>
      rw [← List.singleton_append, ← List.append_assoc]
      exact inductionHypothesis (fits.blank c)
        (List.forall_mem_append.2 ⟨blankFront, List.forall_mem_singleton.2 blank⟩)
  | comment _ inductionHypothesis =>
      exact .consOther rfl (.leaf (by simp)) blankFront
        (inductionHypothesis (fits.comment rfl) noBlank)
  | combinator explicit _ _ inductionHypothesis =>
      exact .consOther rfl (.leaf (by simpa using explicit)) blankFront
        (inductionHypothesis (fits_combinator _ _ front pending) noBlank)
  | @simple last spaced text behind rest node nodes simple _ inductionHypothesis =>
      obtain ⟨isSimple, kept, split_⟩ := simple.kept deeper
      have tiled := TiledFrom.cons ⟨pending, node⟩ kept blankFront
        (inductionHypothesis (fits_compound isSimple front pending) noBlank)
      rwa [fits.separated isSimple, Tile.text, List.append_assoc, List.nil_append, ← split_]
        at tiled

theorem EntryAt.tiled {nested : Bool} {text rest : List Char} {entry : Node}
    (read : EntryAt (argumentReader levels) nested text entry rest) :
    ∃ segment, text = segment ++ rest ∧ TiledBy entry segment := by
  obtain ⟨blank, items⟩ := read
  rename_i blanks start nodes
  obtain ⟨tiles, final, joined, rfl, kept, blankGaps, blankEnd⟩ :=
    items.tiled deeper (Fits.start blanks) blank
  refine ⟨_, joined, ?_⟩
  obtain ⟨_, _, split_, _⟩ := items.tiled deeper (Fits.start []) (by simp)
  have inside : rest <:+ start := ⟨_, split_.symm⟩
  have same : tiles.flatMap Tile.text ++ final = blanks ++ before start rest := by
    rw [← append_of_suffix inside, ← List.append_assoc] at joined
    exact (List.append_cancel_right joined).symm
  have space : ∀ c ∈ blanks, isSpace c = true := fun c member => isSpace_of_isBlank (blank c member)
  have trimmed : trim (before start rest) = trim (tiles.flatMap Tile.text ++ final) := by
    rw [same, trim, trim, trimStart_append_of_isSpace space]
  rw [trimmed]
  exact .mk kept blankGaps blankEnd

theorem ListAt.tiled {nested : Bool} {text rest : List Char} {entries : List Node}
    (list : ListAt (argumentReader levels) nested text entries rest) :
    Segmented text entries rest := by
  induction list with
  | last first _ =>
      obtain ⟨segment, rfl, tiled⟩ := first.tiled deeper
      exact ⟨[segment], List.cons_ne_nil _ _, by simp, .cons tiled .nil⟩
  | cons first _ inductionHypothesis =>
      obtain ⟨segment, rfl, tiled⟩ := first.tiled deeper
      obtain ⟨segments, nonempty, rfl, later⟩ := inductionHypothesis
      refine ⟨segment :: segments, List.cons_ne_nil _ _, ?_, .cons tiled later⟩
      rw [List.intercalate_cons_of_ne_nil nonempty]
      simp

end Levels

/-! ## Whole texts -/

/-- An accepted text is the segments of its entries with commas between them. -/
theorem tiledBy_of_ofText {raw : List Char} {root : Node} (accepted : Node.ofText raw = .ok root) :
    root.kind = .root ∧ root.text = trim raw ∧
      ∃ segments, raw = [','].intercalate segments ∧
        List.Forall₂ TiledBy root.children segments := by
  obtain ⟨entries, rest, rfl, list⟩ := listAt_of_ofText accepted
  obtain rfl := list.rest_eq_nil
  obtain ⟨segments, -, joined, tiled⟩ := ListAt.byLevels
    (motive := fun _ text entries rest => Segmented text entries rest)
    (fun _ deeper => ListAt.tiled deeper) maxNesting list
  exact ⟨rfl, rfl, segments, joined.trans (List.append_nil _), tiled⟩

/-- Blanks on both sides of a comment make one descendant combinator, and those of the argument in
parentheses belong to its entries. -/
theorem tiledBy_of_ofText_comment :
    ∃ root, Node.ofText "a /**/ b:not( c , d>e ) , *".toList = .ok root ∧
      root.kind = .root ∧ root.text = trim "a /**/ b:not( c , d>e ) , *".toList ∧
      ∃ segments, "a /**/ b:not( c , d>e ) , *".toList = [','].intercalate segments ∧
        List.Forall₂ TiledBy root.children segments := by
  have isOk : (Node.ofText "a /**/ b:not( c , d>e ) , *".toList).isOk = true := by decide +kernel
  obtain ⟨root, accepted⟩ := exists_of_isOk isOk
  exact ⟨root, accepted, tiledBy_of_ofText accepted⟩

end CssLint.Selector
