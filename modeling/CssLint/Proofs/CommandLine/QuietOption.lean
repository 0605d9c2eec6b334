import CssLint.CommandLine.Options

/-!
# The option to be quiet

Arguments that do not ask for a quiet run are read as before when `--quiet` stands in front
of them, and the run they ask for differs in this one option only.
-/

namespace CssLint.Options

/-- The same options for a quiet run. -/
def hushed (options : Options) : Options :=
  { options with quiet := true }

/-- Where a reader gives options that are not quiet, it was given such, and of the same options for a
quiet run it gives the same. What it reads besides the options is `α`. -/
structure Hushes {α : Type} (read : Options → Except Stop (Options × α)) : Prop where
  step : ∀ {options given : Options} {rest : α}, read options = .ok (given, rest) →
    given.quiet = false →
    options.quiet = false ∧ read options.hushed = .ok (given.hushed, rest)

/-- The same of readers that read nothing besides. -/
structure HushesAlone (read : Options → Except Stop Options) : Prop where
  step : ∀ {options given : Options}, read options = .ok given → given.quiet = false →
    options.quiet = false ∧ read options.hushed = .ok given.hushed

theorem HushesAlone.map {α : Type} {read : Options → Except Stop Options}
    (hushes : HushesAlone read) (rest : α) :
    Hushes fun options => (read options).map (·, rest) := by
  constructor
  intro options given other same loud
  cases inner : read options with
  | error stop =>
      rw [inner] at same
      cases same
  | ok own =>
      rw [inner] at same
      cases same
      obtain ⟨wasLoud, again⟩ := hushes.step inner loud
      exact ⟨wasLoud, by rw [again]; rfl⟩

/-- A value that has nothing to do with being quiet is put into the options. -/
theorem HushesAlone.put {α : Type} {value : Options → Except Stop α}
    {put : Options → α → Options} (same : ∀ options, value options.hushed = value options)
    (loud : ∀ options held, (put options held).quiet = options.quiet)
    (again : ∀ options held, put options.hushed held = (put options held).hushed) :
    HushesAlone fun options => value options >>= fun held => pure (put options held) := by
  constructor
  intro options given read quiet
  cases inner : value options with
  | error stop =>
      rw [inner] at read
      cases read
  | ok held =>
      rw [inner] at read
      cases read
      refine ⟨(loud options held).symm.trans quiet, ?_⟩
      rw [same, inner, ← again]
      rfl

/-! ## Values, flags and files -/

theorem hushes_assign (parameter : Parameter) (value : String) :
    HushesAlone fun options => options.assign parameter value := by
  cases parameter with
  | config => exact .put (fun _ => rfl) (fun _ _ => rfl) fun _ _ => rfl
  | max => exact .put (fun _ => rfl) (fun _ _ => rfl) fun _ _ => rfl
  | layout => exact .put (fun _ => rfl) (fun _ _ => rfl) fun _ _ => rfl
  | inputName => exact .put (fun _ => rfl) (fun _ _ => rfl) fun _ _ => rfl

theorem hushes_raise (flag : Flag) : HushesAlone fun options => options.raise flag := by
  constructor
  intro options given read loud
  cases flag with
  | quiet =>
      dsimp only [raise] at read
      split at read
      · cases read
      · cases read
        cases loud
  | verbose =>
      cases read
      exact ⟨loud, rfl⟩
  | version => cases read
  | help => cases read

theorem hushes_addFile (path : String) : HushesAlone fun options => options.addFile path := by
  constructor
  intro options given read loud
  dsimp only [addFile] at read ⊢
  cases written : pathOf? path with
  | none =>
      rw [written] at read
      cases read
  | some path =>
      rw [written] at read
      cases read
      exact ⟨loud, rfl⟩

/-! ## Arguments -/

theorem hushes_readLetters (letters : List Char) :
    Hushes fun options => options.readLetters letters := by
  induction letters with
  | nil =>
      constructor
      intro options given rest read loud
      cases read
      exact ⟨loud, rfl⟩
  | cons letter letters inductionHypothesis =>
      constructor
      intro options given rest read loud
      rw [readLetters] at read ⊢
      cases switch : Switch.ofLetter? letter with
      | none =>
          rw [switch] at read
          cases read
      | some switch_ =>
          rw [switch] at read
          cases switch_ with
          | flag flag =>
              cases raised : options.raise flag with
              | error stop =>
                  simp only [raised] at read
                  cases read
              | ok own =>
                  simp only [raised] at read
                  obtain ⟨ownLoud, later⟩ := inductionHypothesis.step read loud
                  obtain ⟨wasLoud, again⟩ := (hushes_raise flag).step raised ownLoud
                  refine ⟨wasLoud, ?_⟩
                  simp only [again]
                  exact later
          | parameter parameter =>
              dsimp only at read ⊢
              split at read
              · rename_i last
                cases read
                exact ⟨loud, if_pos last⟩
              · rename_i more
                rw [if_neg more]
                exact ((hushes_assign parameter (attachedValue letters)).map none).step read loud

theorem hushes_readWord (text : List Char) : Hushes fun options => options.readWord text := by
  constructor
  intro options given rest read loud
  dsimp only [readWord] at read ⊢
  split at read
  · exact ((hushes_raise _).map none).step read loud
  · cases read
    exact ⟨loud, rfl⟩
  · exact ((hushes_assign _ _).map none).step read loud
  · cases read

theorem hushes_readArgument (argument : String) :
    Hushes fun options => options.readArgument argument := by
  constructor
  intro options given rest read loud
  dsimp only [readArgument] at read ⊢
  split at read
  · exact ((hushes_addFile argument).map none).step read loud
  · exact (hushes_readWord _).step read loud
  · exact (hushes_readLetters _).step read loud
  · exact ((hushes_addFile argument).map none).step read loud

theorem hushes_addFiles (paths : List String) :
    HushesAlone fun options => paths.foldlM addFile options := by
  constructor
  induction paths with
  | nil =>
      intro options given read loud
      cases read
      exact ⟨loud, rfl⟩
  | cons path paths inductionHypothesis =>
      intro options given read loud
      rw [List.foldlM_cons] at read ⊢
      cases added : options.addFile path with
      | error stop =>
          rw [added] at read
          cases read
      | ok own =>
          rw [added] at read
          obtain ⟨ownLoud, later⟩ := inductionHypothesis read loud
          obtain ⟨wasLoud, again⟩ := (hushes_addFile path).step added ownLoud
          exact ⟨wasLoud, by rw [again]; exact later⟩

theorem hushes_readArguments (arguments : List String) :
    HushesAlone fun options => options.readArguments arguments := by
  constructor
  intro options given read loud
  fun_induction readArguments options arguments with
  | case1 options =>
      cases read
      exact ⟨loud, rfl⟩
  | case2 options arguments =>
      rw [readArguments, if_pos rfl]
      exact (hushes_addFiles arguments).step read loud
  | case3 => cases read
  | case4 options argument arguments noEnd own found inductionHypothesis =>
      obtain ⟨ownLoud, later⟩ := inductionHypothesis read
      obtain ⟨wasLoud, again⟩ := (hushes_readArgument argument).step found ownLoud
      refine ⟨wasLoud, ?_⟩
      rw [readArguments, if_neg noEnd, again]
      exact later
  | case5 => cases read
  | case6 => cases read
  | case7 options argument noEnd own parameter found value arguments isValue held assigned
      inductionHypothesis =>
      obtain ⟨heldLoud, later⟩ := inductionHypothesis read
      obtain ⟨ownLoud, assignedAgain⟩ := (hushes_assign parameter value).step assigned heldLoud
      obtain ⟨wasLoud, again⟩ := (hushes_readArgument argument).step found ownLoud
      refine ⟨wasLoud, ?_⟩
      rw [readArguments, if_neg noEnd, again]
      simp only [isValue, if_true, assignedAgain]
      exact later
  | case8 => cases read

/-- In front of arguments that do not ask for a quiet run, `--quiet` asks for one that is the same
else. -/
theorem ofArguments_quiet {arguments : List String} {options : Options}
    (accepted : ofArguments arguments = .ok options) (loud : options.quiet = false) :
    ofArguments ("--quiet" :: arguments) = .ok { options with quiet := true } := by
  obtain ⟨-, again⟩ := (hushes_readArguments arguments).step accepted loud
  have quiet : readArgument empty "--quiet" = .ok (empty.hushed, none) := by
    have word : splitWord "quiet".toList = ("quiet", none) := by decide +kernel
    have switch : Switch.ofWord? "quiet" = some (.flag .quiet) := by decide +kernel
    change readWord empty "quiet".toList = _
    rw [readWord, word]
    simp only [switch]
    rfl
  rw [ofArguments, readArguments, if_neg (by decide), quiet]
  exact again

end CssLint.Options
