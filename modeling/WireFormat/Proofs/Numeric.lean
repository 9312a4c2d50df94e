import WireFormat.Check.View

namespace WireFormat

namespace Arena

def Grows (before after : Arena) : Prop := ∃ more, after.definitions = before.definitions ++ more

theorem Grows.refl (types : Arena) : types.Grows types := ⟨#[], by simp⟩

theorem Grows.trans (one : Grows before middle) (other : Grows middle after) : Grows before after := by
  obtain ⟨more, defined⟩ := one
  obtain ⟨rest, further⟩ := other
  exact ⟨more ++ rest, by rw [further, defined, Array.append_assoc]⟩

theorem push_grows (types : Arena) (definition : Definition) : types.Grows (types.push definition).1 :=
  ⟨#[definition], by simp [push]⟩

theorem bind_grows (types : Arena) (name : String) (id : Nat) : types.Grows (types.bind name id).1 := by
  unfold bind
  split <;> exact ⟨#[], by simp⟩

theorem bind_lookup (types : Arena) (id : Nat) (free : types.lookup name = none) (other : String) :
    (types.bind name id).1.lookup other = if other = name then some id else types.lookup other := by
  have bound : types.bind name id = ({ types with bindings := (name, id) :: types.bindings }, true) := by
    simp [bind, free]
  rw [bound, Arena.lookup, List.lookup_cons]
  by_cases same : other = name
  · simp [same]
  · rw [if_neg same, beq_false_of_ne same, Arena.lookup]

theorem Grows.size (grows : Grows before after) : before.size ≤ after.size := by
  obtain ⟨more, defined⟩ := grows
  simp [Arena.size, defined]

theorem Grows.get? (grows : Grows before after) {id : Nat} (valid : id < before.size) :
    after.get? id = before.get? id := by
  obtain ⟨more, defined⟩ := grows
  rw [Arena.get?, Arena.get?, defined, Array.getElem?_append_left valid]

theorem Grows.isNumeric (grows : Grows before after) (id : Nat) (valid : id < before.size) :
    after.isNumeric id = before.isNumeric id := by
  induction id using Nat.strongRecOn with
  | ind id ih =>
    rw [Arena.isNumeric, Arena.isNumeric, grows.get? valid]
    cases before.get? id with
    | none => rfl
    | some definition =>
      cases kind : definition.kind with
      | typed =>
        cases stored : definition.entries.head?.bind (·.type) with
        | none => simp only [kind, stored]
        | some type =>
          cases type with
          | declared next =>
            by_cases lower : next < id
            · simp only [kind, stored, if_pos lower]
              exact ih next lower (Nat.lt_trans lower valid)
            · simp only [kind, stored, if_neg lower]
          | scalar | external => simp only [kind, stored]
      | _ => simp only [kind]

-- A type that did not resolve, and one from outside, count as numbers.
def counts (types : Arena) : Option Handle → Bool
  | some (.declared id) => types.isNumeric id
  | _ => true

def Holds (types : Arena) (type : Option Handle) : Prop :=
  ∀ id, type = some (.declared id) → id < types.size

theorem Grows.holds (grows : Grows before after) (holds : before.Holds type) : after.Holds type :=
  fun id declared => Nat.lt_of_lt_of_le (holds id declared) grows.size

theorem Grows.counts (grows : Grows before after) (holds : before.Holds type) :
    after.counts type = before.counts type := by
  cases type with
  | none => rfl
  | some handle =>
    cases handle with
    | declared id => exact grows.isNumeric id (holds id rfl)
    | scalar | external => rfl

theorem push_get (types : Arena) (definition : Definition) :
    (types.push definition).1.get? types.size = some definition := by
  simp [push, get?, Arena.size]

theorem push_size (types : Arena) (definition : Definition) :
    (types.push definition).1.size = types.size + 1 := by
  simp [push, Arena.size]

theorem push_isNumeric (types : Arena) (definition : Definition)
    (holds : types.Holds (definition.entries.head?.bind (·.type))) :
    (types.push definition).1.isNumeric types.size =
      match definition.kind with
      | .scalar | .enum => true
      | .typed => types.counts (definition.entries.head?.bind (·.type))
      | _ => false := by
  have grows := push_grows types definition
  rw [Arena.isNumeric, push_get]
  cases kind : definition.kind with
  | typed =>
    cases stored : definition.entries.head?.bind (·.type) with
    | none => simp only [kind, stored, counts]
    | some type =>
      cases type with
      | declared next =>
        have lower : next < types.size := holds next stored
        simp only [kind, stored, if_pos lower, counts]
        exact grows.isNumeric next lower
      | scalar | external => simp only [kind, stored, counts]
  | _ => simp only [kind]

end Arena

theorem View.isNumeric_counts (view : View) (type : Option Handle) :
    view.isNumeric type = view.types.counts type := by
  cases type with
  | none => rfl
  | some handle => cases handle <;> rfl

end WireFormat
