import Mathlib.Data.Finset.Card
import Mathlib.Data.List.Nodup
import WireFormat.Repeats

namespace WireFormat

theorem marked_items [BEq β] (key : α → β) (seen : List β) (items : List α) :
    (marked key seen items).map Prod.fst = items := by
  induction items generalizing seen with
  | nil => rfl
  | cons item rest ih => simp only [marked, List.map_cons, ih]

theorem marked_listed [BEq β] {key : α → β} {seen : List β} {items : List α}
    (member : entry ∈ marked key seen items) : entry.1 ∈ items := by
  rw [← marked_items key seen items]
  exact List.mem_map_of_mem member

theorem repeats_listed [BEq β] {key : α → β} {items : List α} (again : item ∈ repeats key items) :
    item ∈ items := by
  obtain ⟨entry, member, rfl⟩ := List.mem_map.mp again
  exact marked_listed (List.mem_filter.mp member).1

theorem firsts_listed [BEq β] {key : α → β} {items : List α} (first : item ∈ firsts key items) :
    item ∈ items := by
  obtain ⟨entry, member, rfl⟩ := List.mem_map.mp first
  exact marked_listed (List.mem_filter.mp member).1

theorem repeatsAfter_cons [BEq β] (key : α → β) (seen : List β) (item : α) (rest : List α) :
    repeatsAfter key seen (item :: rest) =
      (if seen.contains (key item) then [item] else []) ++
        repeatsAfter key (key item :: seen) rest := by
  cases taken : seen.contains (key item) <;>
    simp only [repeatsAfter, marked, List.filter_cons, taken] <;> simp

theorem firstsAfter_cons [BEq β] (key : α → β) (seen : List β) (item : α) (rest : List α) :
    firstsAfter key seen (item :: rest) =
      (if seen.contains (key item) then [] else [item]) ++
        firstsAfter key (key item :: seen) rest := by
  cases taken : seen.contains (key item) <;>
    simp only [firstsAfter, marked, List.filter_cons, taken] <;> simp

section Lawful

variable [BEq β] [LawfulBEq β] (key : α → β)

theorem marked_congr (same : ∀ k, k ∈ before ↔ k ∈ after) (items : List α) :
    marked key before items = marked key after items := by
  induction items generalizing before after with
  | nil => rfl
  | cons item rest ih =>
    have head : before.contains (key item) = after.contains (key item) := by
      rw [Bool.eq_iff_iff, List.contains_iff_mem, List.contains_iff_mem]
      exact same _
    have tail : ∀ k, k ∈ key item :: before ↔ k ∈ key item :: after := by
      intro k
      rw [List.mem_cons, List.mem_cons, same]
    simp only [marked, head, ih tail]

theorem repeatsAfter_congr (same : ∀ k, k ∈ before ↔ k ∈ after) (items : List α) :
    repeatsAfter key before items = repeatsAfter key after items := by
  rw [repeatsAfter, repeatsAfter, marked_congr key same]

theorem marked_fresh (seen : List β) (items : List α) :
    (∀ entry ∈ marked key seen items, entry.2 = false) ↔
      (∀ item ∈ items, key item ∉ seen) ∧ (items.map key).Nodup := by
  induction items generalizing seen with
  | nil => simp [marked]
  | cons item rest ih =>
    rw [marked, List.forall_mem_cons, List.forall_mem_cons, ih, List.map_cons, List.nodup_cons]
    simp only [List.contains_eq_mem, decide_eq_false_iff_not, List.mem_cons, not_or]
    constructor
    · intro given
      obtain ⟨new, others, distinct⟩ := given
      refine ⟨⟨new, fun other member => (others other member).2⟩, ?_, distinct⟩
      intro again
      obtain ⟨other, member, equal⟩ := List.mem_map.mp again
      exact (others other member).1 equal
    · intro given
      obtain ⟨⟨new, others⟩, single, distinct⟩ := given
      refine ⟨new, fun other member => ⟨?_, others other member⟩, distinct⟩
      intro equal
      exact single (List.mem_map.mpr ⟨other, member, equal⟩)

theorem marked_accepted (clear : α → Prop) (items : List α) :
    (∀ entry ∈ marked key [] items, clear entry.1 ∧ entry.2 = false) ↔
      (∀ item ∈ items, clear item) ∧ (items.map key).Nodup := by
  have fresh := marked_fresh key [] items
  have each : (∀ entry ∈ marked key [] items, clear entry.1) ↔ ∀ item ∈ items, clear item := by
    conv => rhs; rw [← marked_items key [] items]
    exact List.forall_mem_map.symm
  simp only [List.not_mem_nil, not_false_eq_true, implies_true, true_and] at fresh
  rw [← fresh, ← each]
  exact forall₂_and

theorem repeats_nil (items : List α) : repeats key items = [] ↔ (items.map key).Nodup := by
  have fresh := marked_fresh key [] items
  simp only [List.not_mem_nil, not_false_eq_true, implies_true, true_and] at fresh
  rw [← fresh, repeats, repeatsAfter, List.map_eq_nil_iff, List.filter_eq_nil_iff]
  simp

theorem firsts_distinct (items : List α) (distinct : (items.map key).Nodup) :
    firsts key items = items := by
  have fresh := (marked_fresh key [] items).mpr ⟨by simp, distinct⟩
  have all : (marked key [] items).filter (fun item => !item.2) = marked key [] items := by
    rw [List.filter_eq_self]
    intro entry member
    simp [fresh entry member]
  rw [firsts, firstsAfter, all, marked_items]

theorem firstsAfter_split (first : item ∈ firstsAfter key seen items) : key item ∉ seen ∧
    ∃ before after, items = before ++ item :: after ∧ ∀ other ∈ before, key other ≠ key item := by
  induction items generalizing seen with
  | nil => cases first
  | cons head rest ih =>
    rw [firstsAfter_cons, List.mem_append] at first
    rcases first with here | later
    · obtain ⟨fresh, rfl⟩ : key head ∉ seen ∧ item = head := by simpa using here
      exact ⟨fresh, [], rest, rfl, nofun⟩
    · obtain ⟨fresh, before, after, rfl, others⟩ := ih later
      obtain ⟨other, fresh⟩ := not_or.mp (mt List.mem_cons.mpr fresh)
      exact ⟨fresh, head :: before, after, rfl, List.forall_mem_cons.mpr ⟨Ne.symm other, others⟩⟩

theorem firstsAfter_keys (seen : List β) (items : List α) :
    (firstsAfter key seen items).map key =
      ((items.map key).filter fun given => !seen.contains given).eraseDups := by
  induction items generalizing seen with
  | nil => rfl
  | cons item rest ih =>
    rw [firstsAfter_cons, List.map_append, ih, List.map_cons, List.filter_cons]
    cases taken : seen.contains (key item) with
    | true =>
      have same : (fun given => !(key item :: seen).contains given) = fun given => !seen.contains given := by
        funext given
        by_cases equal : given = key item
        · rw [equal, taken]
          simp
        · simp [equal]
      simp only [if_true, Bool.not_true, Bool.false_eq_true, if_false, List.map_nil, List.nil_append, same]
    | false =>
      have apart : (fun given => !(key item :: seen).contains given) =
          fun given => !given == key item && !seen.contains given := by
        funext given
        simp
      simp only [Bool.not_false, if_true, Bool.false_eq_true, if_false, List.map_cons, List.map_nil,
        List.eraseDups_cons, List.filter_filter, apart, List.cons_append, List.nil_append]

theorem firsts_keys (items : List α) : (firsts key items).map key = (items.map key).eraseDups :=
  (firstsAfter_keys key [] items).trans (by simp)

theorem firsts_split (first : item ∈ firsts key items) :
    ∃ before after, items = before ++ item :: after ∧ ∀ other ∈ before, key other ≠ key item :=
  (firstsAfter_split key first).2

end Lawful

-- Each item of a list with the items before it.
def preceded (items : List α) : List (List α × α) := items.zipIdx.map fun (item, i) => (items.take i, item)

theorem preceded_cons (item : α) (rest : List α) :
    preceded (item :: rest) = ([], item) :: (preceded rest).map fun pair => (item :: pair.1, pair.2) := by
  rw [preceded, List.zipIdx_cons, Nat.zero_add, List.zipIdx_succ, preceded, List.map_cons, List.map_map, List.map_map]
  rfl

theorem preceded_map (f : α → β) (items : List α) :
    preceded (items.map f) = (preceded items).map fun pair => (pair.1.map f, f pair.2) := by
  induction items with
  | nil => rfl
  | cons item rest ih => simp [preceded_cons, ih]

theorem marked_preceded [BEq β] (key : α → β) (seen : List β) (items : List α) :
    marked key seen items = (preceded items).map fun pair =>
      (pair.2, (pair.1.map key).contains (key pair.2) || seen.contains (key pair.2)) := by
  induction items generalizing seen with
  | nil => rfl
  | cons item rest ih =>
    rw [marked, preceded_cons, List.map_cons, List.map_map, ih]
    simp [Bool.or_left_comm, Bool.or_assoc, Function.comp_def]

section Preceded

variable [DecidableEq β] (key : α → β)

theorem marked_each (found : α × Bool → List γ) (items : List α) : (marked key [] items).flatMap found =
    (preceded items).flatMap fun pair => found (pair.2, decide (key pair.2 ∈ pair.1.map key)) := by
  rw [marked_preceded, List.flatMap_map]
  simp

theorem repeats_preceded (items : List α) :
    repeats key items = ((preceded items).filter fun pair => key pair.2 ∈ pair.1.map key).map Prod.snd := by
  rw [repeats, repeatsAfter, marked_preceded, List.filter_map, List.map_map]
  simp [Function.comp_def]

theorem firsts_preceded (items : List α) :
    firsts key items = ((preceded items).filter fun pair => key pair.2 ∉ pair.1.map key).map Prod.snd := by
  have fresh (pair : List α × α) : (!((pair.1.map key).contains (key pair.2) || ([] : List β).contains (key pair.2))) =
      decide (key pair.2 ∉ pair.1.map key) := by
    rw [List.contains_nil, Bool.or_false, List.contains_eq_mem, decide_not]
  rw [firsts, firstsAfter, marked_preceded, List.filter_map, List.map_map]
  simp only [Function.comp_def, fresh]

theorem firstsAfter_nodup (seen : List β) (items : List α) : ((firstsAfter key seen items).map key).Nodup := by
  induction items generalizing seen with
  | nil => exact .nil
  | cons item rest ih =>
    rw [firstsAfter_cons]
    split
    · exact ih _
    · refine List.nodup_cons.mpr ⟨fun again => ?_, ih _⟩
      obtain ⟨other, first, same⟩ := List.mem_map.mp again
      exact (firstsAfter_split key first).1 (same ▸ List.mem_cons_self)

theorem firstsAfter_snoc (seen : List β) (items : List α) (last : α) :
    firstsAfter key seen (items ++ [last]) =
      firstsAfter key seen items ++ if key last ∈ items.map key ∨ key last ∈ seen then [] else [last] := by
  induction items generalizing seen with
  | nil =>
    rw [List.nil_append, firstsAfter_cons]
    simp [firstsAfter, marked]
  | cons item rest ih =>
    rw [List.cons_append, firstsAfter_cons, firstsAfter_cons, ih, List.append_assoc]
    simp [or_left_comm, or_assoc, or_comm]

theorem firsts_snoc (items : List α) (last : α) :
    firsts key (items ++ [last]) = firsts key items ++ if key last ∈ items.map key then [] else [last] := by
  have snoc := firstsAfter_snoc key [] items last
  simp only [List.not_mem_nil, or_false] at snoc
  exact snoc

theorem firstsAfter_find (seen : List β) (items : List α) (wanted : β) (fresh : wanted ∉ seen) :
    (firstsAfter key seen items).find? (fun item => key item = wanted) = items.find? fun item => key item = wanted := by
  induction items generalizing seen with
  | nil => rfl
  | cons item rest ih =>
    rw [firstsAfter_cons, List.find?_append, List.find?_cons]
    by_cases found : key item = wanted
    · have unseen : ¬ seen.contains (key item) = true := by simpa [found] using fresh
      rw [if_neg unseen]
      simp [found]
    · have unlike : wanted ∉ key item :: seen := by simp [Ne.symm found, fresh]
      rw [ih _ unlike]
      split <;> simp [found]

theorem firsts_find (items : List α) (wanted : β) :
    (firsts key items).find? (fun item => key item = wanted) = items.find? fun item => key item = wanted :=
  firstsAfter_find key [] items wanted List.not_mem_nil

theorem firsts_sublist (items : List α) : (firsts key items).Sublist items := by
  have part : (firsts key items).Sublist ((marked key [] items).map Prod.fst) := List.filter_sublist.map Prod.fst
  rwa [marked_items] at part

theorem repeatsAfter_append (seen : List β) (front back : List α) :
    repeatsAfter key seen (front ++ back) =
      repeatsAfter key seen front ++ repeatsAfter key (front.map key ++ seen) back := by
  induction front generalizing seen with
  | nil => rfl
  | cons item rest ih =>
    have same : ∀ k, k ∈ rest.map key ++ key item :: seen ↔ k ∈ (item :: rest).map key ++ seen := by
      simp [or_left_comm]
    rw [List.cons_append, repeatsAfter_cons, repeatsAfter_cons, ih, repeatsAfter_congr key same, List.append_assoc]

theorem repeatsAfter_distinct (seen : List β) (items : List α) (distinct : (items.map key).Nodup) :
    repeatsAfter key seen items = items.filter fun item => key item ∈ seen := by
  induction items generalizing seen with
  | nil => rfl
  | cons item rest ih =>
    obtain ⟨single, others⟩ := List.nodup_cons.mp distinct
    have apart : ∀ other ∈ rest, (decide (key other ∈ key item :: seen)) = decide (key other ∈ seen) := by
      intro other member
      have unlike : key other ≠ key item := fun same => single (same ▸ List.mem_map_of_mem member)
      simp [unlike]
    rw [repeatsAfter_cons, ih _ others, List.filter_congr apart]
    by_cases taken : key item ∈ seen <;> simp [taken]

theorem repeatsAfter_named (nameOf : α → Option β) (seen : List β) (items : List α) :
    repeatsAfter id seen (items.filterMap nameOf) = (preceded items).flatMap fun pair =>
      (nameOf pair.2).toList.filter fun name => some name ∈ pair.1.map nameOf ∨ name ∈ seen := by
  induction items generalizing seen with
  | nil => rfl
  | cons item rest ih =>
    rw [preceded_cons, List.filterMap_cons, List.flatMap_cons, List.flatMap_map]
    cases named : nameOf item with
    | none => simp [ih, named]
    | some name =>
      simp only [repeatsAfter_cons, ih, Option.toList_some, List.map_cons, named]
      by_cases taken : name ∈ seen <;> simp [taken, or_left_comm, or_assoc]

theorem repeatsAfter_parts (parts : α → List β) (seen : List β) (items : List α)
    (distinct : ∀ item ∈ items, (parts item).Nodup) :
    repeatsAfter id seen (items.flatMap parts) = (preceded items).flatMap fun pair =>
      (parts pair.2).filter fun part => part ∈ pair.1.flatMap parts ∨ part ∈ seen := by
  induction items generalizing seen with
  | nil => rfl
  | cons item rest ih =>
    obtain ⟨one, others⟩ := List.forall_mem_cons.mp distinct
    have own : repeatsAfter id seen (parts item) = (parts item).filter fun part => part ∈ seen :=
      repeatsAfter_distinct id seen _ (by rwa [List.map_id])
    rw [List.flatMap_cons, repeatsAfter_append, own, ih _ others, preceded_cons, List.flatMap_cons,
      List.flatMap_map, List.map_id]
    simp [or_left_comm, or_assoc]

theorem repeats_length (items : List α) : (repeats key items).length + (firsts key items).length = items.length := by
  have all := congrArg List.length (marked_items key [] items)
  have parted := List.length_eq_length_filter_add (l := marked key [] items) (fun entry => entry.2)
  rw [List.length_map] at all
  rw [repeats, repeatsAfter, firsts, firstsAfter, List.length_map, List.length_map, ← all]
  exact parted.symm

theorem firsts_length (items : List α) : (firsts key items).length = (items.map key).toFinset.card := by
  have distinct : ((firsts key items).map key).Nodup := firstsAfter_nodup key [] items
  rw [← List.length_map key, ← List.toFinset_card_of_nodup distinct, firsts_keys]
  congr 1
  ext
  simp

end Preceded

end WireFormat
