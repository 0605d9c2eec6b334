import CssLint.Config.Setting

/-!
# Faults of settings

A setting is written as a value, or as a list of a value and an object.  What can be
wrong with it is a relation of its own beside the reader.  The reader refuses a setting
just when it has a fault and does not turn its rule off: a list that begins with null
does so whatever stands behind the null.
-/

namespace CssLint.RuleSetting

/-! ## What a setting says -/

/-- The setting turns its rule off. -/
inductive IsOff : Json → Prop
  | null : IsOff .null
  | no : IsOff (.bool false)
  | list {more : List Json} : IsOff (.array (.null :: more))

/-- The value for the rule: the first element of a list, or what is no list itself. -/
def primaryPart : Json → Json
  | .array (primary :: _) => primary
  | value => value

/-- The member of the second element of a list. -/
def option? (name : String) : Json → Option Json
  | .array (_ :: secondary :: _) => secondary.member? name
  | _ => none

/-- Warnings are errors unless the setting says otherwise. -/
def writtenSeverity (value : Json) : Severity :=
  match option? "severity" value with
  | some (.string "warning") => .warning
  | _ => .error

/-- The message of a setting; what is no text is none. -/
def writtenMessage? (value : Json) : Option String :=
  match option? "message" value with
  | some (.string text) => some text
  | _ => none

/-- The setting as it is written. -/
def written (value : Json) : RuleSetting :=
  ⟨primaryPart value, writtenSeverity value, writtenMessage? value⟩

/-- What is wrong with a setting, and the error that tells it. -/
inductive HasFault (rule : String) : Json → ConfigError → Prop
  | nothing : HasFault rule (.array []) (.invalidSetting rule)
  | noObject {primary secondary : Json} {more : List Json}
      (other : ∀ members, secondary ≠ .object members) :
      HasFault rule (.array (primary :: secondary :: more)) (.invalidSetting rule)
  | severity {primary value : Json} {members : Members Json} {more : List Json}
      (held : members.get? "severity" = some value) (notWarning : value ≠ .string "warning")
      (notError : value ≠ .string "error") :
      HasFault rule (.array (primary :: .object members :: more))
        (.invalidSeverity rule value.compact)
  | tooMany {primary secondary third : Json} {more : List Json} :
      HasFault rule (.array (primary :: secondary :: third :: more)) (.invalidSetting rule)

/-! ## The second element -/

/-- A severity is one of the two names, or it is refused. -/
theorem severityOf_cases (rule : String) (primary : Json) (members : Members Json)
    (more : List Json) :
    (∃ value, members.get? "severity" = some value ∧ value ≠ .string "warning" ∧
        value ≠ .string "error" ∧
        severityOf rule (.object members) = .error (.invalidSeverity rule value.compact)) ∨
      (∀ value, members.get? "severity" = some value →
          value = .string "warning" ∨ value = .string "error") ∧
        severityOf rule (.object members) =
          .ok (writtenSeverity (.array (primary :: .object members :: more))) := by
  simp only [severityOf, writtenSeverity, option?, Json.member?]
  cases held : members.get? "severity" with
  | none => exact Or.inr ⟨by simp, rfl⟩
  | some value =>
      by_cases warning : value = .string "warning"
      · subst warning
        exact Or.inr ⟨by simp, rfl⟩
      by_cases error : value = .string "error"
      · subst error
        exact Or.inr ⟨by simp, rfl⟩
      refine Or.inl ⟨value, rfl, warning, error, ?_⟩
      cases value with
      | string text =>
          have notWarning : text ≠ "warning" := fun same => warning (congrArg Json.string same)
          have notError : text ≠ "error" := fun same => error (congrArg Json.string same)
          simp only [Json.string?, Option.bind_some, Severity.ofName?, notWarning, notError,
            if_false]
      | _ => rfl

theorem message_eq (primary : Json) (members : Members Json) (more : List Json) :
    ((Json.object members).member? "message").bind Json.string? =
      writtenMessage? (.array (primary :: .object members :: more)) := by
  simp only [writtenMessage?, option?]
  cases (Json.object members).member? "message" with
  | none => rfl
  | some value => cases value <;> rfl

/-! ## Settings -/

/-- A list that does not begin with null is a value alone. -/
theorem ofJson_single {primary : Json} (notNull : primary ≠ .null) (rule : String) :
    ofJson rule (.array [primary]) = .ok (some (ofPrimary primary)) := by
  cases primary with
  | null => exact absurd rfl notNull
  | _ => rfl

/-- The second element of a list that does not begin with null is read before the elements behind
it are counted. -/
theorem ofJson_list {primary : Json} (notNull : primary ≠ .null) (rule : String) (secondary : Json)
    (more : List Json) :
    ofJson rule (.array (primary :: secondary :: more)) =
      match ofParts rule primary secondary with
      | .error error => .error error
      | .ok setting =>
        if more.isEmpty then .ok (some setting) else .error (.invalidSetting rule) := by
  cases primary with
  | null => exact absurd rfl notNull
  | _ => rfl

/-- What is read of a list that does not begin with null. -/
theorem ofJson_pair {primary : Json} (notNull : primary ≠ .null) (rule : String) (secondary : Json)
    (more : List Json) :
    (∃ fault, HasFault rule (.array (primary :: secondary :: more)) fault ∧
        ofJson rule (.array (primary :: secondary :: more)) = .error fault) ∨
      (∀ fault, ¬ HasFault rule (.array (primary :: secondary :: more)) fault) ∧
        ofJson rule (.array (primary :: secondary :: more)) =
          .ok (some (written (.array (primary :: secondary :: more)))) := by
  have read := ofJson_list notNull rule secondary more
  by_cases object : ∃ members, secondary = .object members
  · obtain ⟨members, rfl⟩ := object
    rcases severityOf_cases rule primary members more with
      ⟨held, found, notWarning, notError, refused⟩ | ⟨known, severity⟩
    · refine Or.inl ⟨_, .severity found notWarning notError, ?_⟩
      rw [read, ofParts, refused]
    · cases more with
      | nil =>
          refine Or.inr ⟨fun fault faulty => ?_, ?_⟩
          · cases faulty with
            | noObject other => exact other members rfl
            | severity found notWarning notError => exact (known _ found).elim notWarning notError
          · rw [read, ofParts, severity, message_eq primary members []]
            rfl
      | cons third more =>
          refine Or.inl ⟨_, .tooMany, ?_⟩
          rw [read, ofParts, severity]
          rfl
  · have other : ∀ members, secondary ≠ .object members := fun members same =>
      object ⟨members, same⟩
    refine Or.inl ⟨_, .noObject other, ?_⟩
    rw [read]
    cases secondary with
    | object members => exact absurd rfl (other members)
    | _ => rfl

/-- A setting is off, or it has a fault and is refused with the error of a fault, or it has none and
is read as it is written. -/
theorem ofJson_cases (rule : String) (value : Json) :
    (IsOff value ∧ ofJson rule value = .ok none) ∨
      ¬ IsOff value ∧ ((∃ fault, HasFault rule value fault ∧ ofJson rule value = .error fault) ∨
        (∀ fault, ¬ HasFault rule value fault) ∧
          ofJson rule value = .ok (some (written value))) := by
  cases value with
  | null => exact Or.inl ⟨.null, rfl⟩
  | bool value =>
      cases value with
      | false => exact Or.inl ⟨.no, rfl⟩
      | true => exact Or.inr ⟨nofun, Or.inr ⟨nofun, rfl⟩⟩
  | number value => exact Or.inr ⟨nofun, Or.inr ⟨nofun, rfl⟩⟩
  | string value => exact Or.inr ⟨nofun, Or.inr ⟨nofun, rfl⟩⟩
  | object members => exact Or.inr ⟨nofun, Or.inr ⟨nofun, rfl⟩⟩
  | array parts =>
      cases parts with
      | nil => exact Or.inr ⟨nofun, Or.inl ⟨_, .nothing, rfl⟩⟩
      | cons primary parts =>
          by_cases null : primary = .null
          · subst null
            exact Or.inl ⟨.list, rfl⟩
          · have on : ¬ IsOff (.array (primary :: parts)) := by
              rintro ⟨⟩
              exact null rfl
            refine Or.inr ⟨on, ?_⟩
            cases parts with
            | nil => exact Or.inr ⟨nofun, ofJson_single null rule⟩
            | cons secondary more => exact ofJson_pair null rule secondary more

/-- A setting is refused just when it has a fault and does not turn its rule off, and the error
tells a fault that it has.  It turns its rule off just when it is null, false or a list that begins
with null.  Otherwise it is read as it is written. -/
theorem ofJson_faults (rule : String) (value : Json) :
    ((∃ error, ofJson rule value = .error error) ↔
        ¬ IsOff value ∧ ∃ fault, HasFault rule value fault) ∧
      (∀ error, ofJson rule value = .error error → HasFault rule value error) ∧
      (ofJson rule value = .ok none ↔ IsOff value) ∧
      ∀ setting, ofJson rule value = .ok (some setting) ↔
        ¬ IsOff value ∧ (∀ fault, ¬ HasFault rule value fault) ∧ setting = written value := by
  rcases ofJson_cases rule value with ⟨off, read⟩ | ⟨on, ⟨fault, faulty, read⟩ | ⟨sound, read⟩⟩
  · simp [read, off]
  · refine ⟨⟨fun _ => ⟨on, fault, faulty⟩, fun _ => ⟨fault, read⟩⟩, fun error same => ?_, ?_, ?_⟩
    · rw [read] at same
      cases same
      exact faulty
    · simp [read, on]
    · intro setting
      rw [read]
      exact ⟨nofun, fun ⟨_, sound, _⟩ => absurd faulty (sound fault)⟩
  · simp [read, on, sound, eq_comm]

/-- An unknown severity is told before the element too many behind it. -/
theorem ofJson_faults_severity :
    let value : Json :=
      .array [.number (.integer 2), .object [("severity", .string "fatal")], .null]
    ofJson "r" value = .error (.invalidSeverity "r" (Json.string "fatal").compact) ∧
      HasFault "r" value (.invalidSeverity "r" (Json.string "fatal").compact) ∧
      HasFault "r" value (.invalidSetting "r") := by
  intro value
  have refused : ofJson "r" value = .error (.invalidSeverity "r" (Json.string "fatal").compact) :=
    rfl
  exact ⟨refused, (ofJson_faults "r" value).2.1 _ refused, .tooMany⟩

/-- A list of three elements that begins with null has faults, and is not refused. -/
theorem ofJson_faults_null :
    let value : Json := .array [.null, .number (.integer 1), .number (.integer 2)]
    HasFault "r" value (.invalidSetting "r") ∧ ofJson "r" value = .ok none ∧
      ¬ ∃ error, ofJson "r" value = .error error :=
  ⟨.tooMany, rfl, nofun⟩

end CssLint.RuleSetting
