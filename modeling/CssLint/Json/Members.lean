/-!
Values by name.

Members stand in the order of their names, each name once. Of several values for
one name the last one stays.
-/

namespace CssLint

/-- Values by name, in the order of the names. -/
abbrev Members (α : Type) : Type := List (String × α)

namespace Members

variable {α : Type}

/-- The members with a value for the given name; it takes the place of another one. -/
def insert (name : String) (value : α) : Members α → Members α
  | [] => [(name, value)]
  | (other, held) :: members =>
    if name = other then (name, value) :: members
    else if name < other then (name, value) :: (other, held) :: members
    else (other, held) :: insert name value members

def Ordered (members : Members α) : Prop :=
  members.Pairwise fun left right => left.1 < right.1

theorem mem_insert {name : String} {value : α} {members : Members α} {pair : String × α}
    (member : pair ∈ insert name value members) : pair = (name, value) ∨ pair ∈ members := by
  induction members with
  | nil => exact Or.inl (List.mem_singleton.1 member)
  | cons first members inductionHypothesis =>
      obtain ⟨other, held⟩ := first
      unfold insert at member
      split at member
      · exact (List.mem_cons.1 member).imp_right (List.mem_cons_of_mem _)
      · split at member
        · exact List.mem_cons.1 member
        · rcases List.mem_cons.1 member with same | later
          · exact Or.inr (same ▸ List.mem_cons_self)
          · exact (inductionHypothesis later).imp_right (List.mem_cons_of_mem _)

theorem Ordered.insert {members : Members α} (ordered : members.Ordered) (name : String)
    (value : α) : (members.insert name value).Ordered := by
  induction members with
  | nil => exact List.pairwise_singleton _ _
  | cons first members inductionHypothesis =>
      obtain ⟨other, held⟩ := first
      obtain ⟨least, later⟩ := List.pairwise_cons.1 ordered
      unfold Members.insert
      split
      · rename_i same
        exact List.pairwise_cons.2 ⟨fun pair member => same ▸ least pair member, later⟩
      · rename_i different
        split
        · rename_i smaller
          refine List.pairwise_cons.2 ⟨fun pair member => ?_, ordered⟩
          rcases List.mem_cons.1 member with rfl | behind
          · exact smaller
          · exact String.lt_trans smaller (least pair behind)
        · rename_i notSmaller
          refine List.pairwise_cons.2 ⟨fun pair member => ?_, inductionHypothesis later⟩
          rcases mem_insert member with rfl | behind
          · refine Classical.byContradiction fun notGreater => different ?_
            exact String.le_antisymm (String.not_lt.1 notGreater) (String.not_lt.1 notSmaller)
          · exact least pair behind

/-- The members with the given names and values, which may come in any order. -/
def ofList (pairs : List (String × α)) : Members α :=
  pairs.foldl (fun members (name, value) => insert name value members) []

def get? (name : String) (members : Members α) : Option α :=
  members.lookup name

end Members

end CssLint
