import CssLint.Proofs.Selector.Measures
import CssLint.Proofs.Selector.PlainText

/-!
# Plain selectors inside rules

An entry inside a rule stands for one selector behind each of those that the rule
stands for.  Such a selector is plain again, and its compound selectors are those of
both.
-/

namespace CssLint.Selector.Written

variable {α : Type} {inner : α → Prop} {form : Form α}

/-! ## One behind another -/

/-- The entry with another one and a space in front of it. -/
def Complex.behind (outer complex : Complex α) : Complex α :=
  ⟨outer.lead, outer.first, outer.more ++ (.space, complex.first) :: complex.more⟩

theorem Complex.text_behind {complex : Complex α} (plain : complex.IsPlain inner)
    (outer : Complex α) :
    (outer.behind complex).text form = outer.text form ++ ' ' :: complex.text form := by
  rw [text_of_isPlain plain form]
  simp [behind, text, Link.space, Link.text]

theorem Complex.IsPlain.behind {outer complex : Complex α} (plainOuter : outer.IsPlain inner)
    (plain : complex.IsPlain inner) : (outer.behind complex).IsPlain inner := by
  constructor
  · exact plainOuter.lead
  · exact plainOuter.first
  · intro pair member
    rcases List.mem_append.1 member with ofOuter | later
    · exact plainOuter.more pair ofOuter
    · rcases List.mem_cons.1 later with rfl | ofMore
      · exact plain.first
      · exact plain.more pair ofMore

/-- The measure of an entry with a measured selector and a space in front of it. -/
def Measure.behind (outer measure : Measure) : Measure :=
  ⟨outer.text ++ ' ' :: measure.text, outer.compounds + measure.compounds⟩

theorem Complex.measure_behind {complex : Complex α} (plain : complex.IsPlain inner)
    (outer : Complex α) :
    (outer.behind complex).measure form = (outer.measure form).behind (complex.measure form) := by
  rw [measure, text_behind plain]
  simp [Complex.behind, Measure.behind, measure]
  omega

/-! ## Selectors without negations -/

theorem Simple.IsPlain.mono {other : α → Prop}
    (allows : ∀ argument, inner argument → other argument) {simple : Simple α}
    (plain : simple.IsPlain inner) : simple.IsPlain other := by
  cases simple with
  | list mark name argument =>
      obtain ⟨single, named, plainArgument⟩ := plain
      exact ⟨single, named, allows argument plainArgument⟩
  | _ => exact plain

theorem Complex.IsPlain.mono {other : α → Prop}
    (allows : ∀ argument, inner argument → other argument) {complex : Complex α}
    (plain : complex.IsPlain inner) : complex.IsPlain other := by
  have ofCompound : ∀ compound : Compound α, compound.IsPlain inner → compound.IsPlain other := by
    intro compound plainCompound
    constructor
    · exact plainCompound.head
    · intro simple member
      exact (plainCompound.simples simple member).mono allows
  constructor
  · exact plain.lead
  · exact ofCompound complex.first plain.first
  · intro pair member
    exact ofCompound pair.2 (plain.more pair member)

/-- The entry is plain and has no negations. -/
def Complex.IsFlat (complex : Complex α) : Prop :=
  complex.IsPlain fun _ => False

instance : DecidablePred (@Complex.IsFlat α) := fun complex =>
  inferInstanceAs (Decidable (complex.IsPlain fun _ => False))

theorem Complex.IsFlat.plain {complex : Complex α} (flat : complex.IsFlat) :
    complex.IsPlain inner :=
  IsPlain.mono (fun _ impossible => impossible.elim) flat

/-- Without negations only the entry itself is measured. -/
theorem Complex.IsFlat.measures {complex : Complex α} (flat : complex.IsFlat)
    (counted : α → List Measure) : complex.measures form counted = [complex.measure form] := by
  have ofCompound : ∀ compound : Compound α, (compound.IsPlain fun _ => False) →
      compound.measures counted = [] := by
    intro compound plain
    apply List.flatMap_eq_nil_iff.2
    intro simple member
    have plainSimple := plain.simples simple member
    cases simple with
    | list mark name argument => exact plainSimple.2.2.elim
    | _ => rfl
  have ofMore := List.flatMap_eq_nil_iff.2 fun pair member =>
    ofCompound pair.2 (flat.more pair member)
  rw [Complex.measures, ofCompound _ flat.first, List.nil_append]
  exact congrArg (· ++ [complex.measure form]) ofMore

/-! ## Lists of selectors -/

/-- The measures of entries inside a rule that stands for some measured selectors; those of the
first entry come first. -/
def Measure.within (outer measures : List Measure) : List Measure :=
  measures.flatMap fun measure => outer.map fun around => around.behind measure

/-- The entries inside a rule that stands for some selectors. -/
def Complex.within (outer complexes : List (Complex α)) : List (Complex α) :=
  complexes.flatMap fun complex => outer.map fun around => around.behind complex

variable {outer complexes : List (Complex α)}

theorem Complex.map_measure_within (plain : ∀ complex ∈ complexes, complex.IsPlain inner) :
    (within outer complexes).map (measure form) =
      Measure.within (outer.map (measure form)) (complexes.map (measure form)) := by
  rw [within, Measure.within, List.map_flatMap, List.flatMap_map]
  apply List.flatMap_congr
  intro complex member
  rw [List.map_map, List.map_map]
  apply List.map_congr_left
  intro around _
  exact measure_behind (plain complex member) around

theorem Complex.map_text_within (plain : ∀ complex ∈ complexes, complex.IsPlain inner) :
    (within outer complexes).map (text form) =
      (complexes.map (text form)).flatMap fun entry =>
        (outer.map (text form)).map fun around => around ++ ' ' :: entry := by
  rw [within, List.map_flatMap, List.flatMap_map]
  apply List.flatMap_congr
  intro complex member
  rw [List.map_map, List.map_map]
  apply List.map_congr_left
  intro around _
  exact text_behind (plain complex member) around

theorem Complex.isFlat_within (ofOuter : ∀ complex ∈ outer, complex.IsFlat)
    (flat : ∀ complex ∈ complexes, complex.IsFlat) :
    ∀ complex ∈ within outer complexes, complex.IsFlat := by
  intro complex member
  obtain ⟨last, ofComplexes, joined⟩ := List.mem_flatMap.1 member
  obtain ⟨around, isOuter, rfl⟩ := List.mem_map.1 joined
  exact (ofOuter around isOuter).behind (flat last ofComplexes)

/-! ## Resolution -/

/-- A selector without nesting selectors stands for itself behind each of the texts when it is
inside rules with the given entries. -/
def Nests (above : List (List (List Char))) (texts : List (List Char)) : Prop :=
  ∀ selector : List Char, '&' ∉ selector →
    resolve above selector = texts.map fun text => text ++ ' ' :: selector

theorem nests_singleton (entries : List (List Char)) : Nests [entries] entries := by
  intro selector absent
  simp [resolve, containsNesting_eq_false absent, List.map_eq_flatMap]

/-- Inside one more rule each of its entries stands behind each of the texts. -/
theorem Nests.cons {above : List (List (List Char))} {texts entries : List (List Char)}
    (nests : Nests above texts) (plain : ∀ entry ∈ entries, '&' ∉ entry) :
    Nests (entries :: above)
      (entries.flatMap fun entry => texts.map fun text => text ++ ' ' :: entry) := by
  intro selector absent
  have inside : ∀ entry ∈ entries, resolve above (entry ++ ' ' :: selector) =
      (texts.map fun text => text ++ ' ' :: entry).map fun text => text ++ ' ' :: selector := by
    intro entry member
    have absentInside : '&' ∉ entry ++ ' ' :: selector := by
      simp [plain entry member, absent]
    rw [nests _ absentInside, List.map_map]
    apply List.map_congr_left
    intro text _
    simp
  rw [resolve, containsNesting_eq_false absent, List.map_flatMap]
  exact List.flatMap_congr inside

end CssLint.Selector.Written
