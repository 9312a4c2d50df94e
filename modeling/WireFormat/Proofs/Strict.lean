import WireFormat.Proofs.WellFormed

namespace WireFormat

-- Once every line has a type that resolves, nothing is left to tolerate: what the
-- checks let pass because it was reported elsewhere does not occur.

section Clean

variable {place : Place}

def LinesKnown (externs : List String) (prior : List Decl) : Prop :=
  ∀ before entry after, prior = before ++ .field entry :: after →
    Place.Knows ⟨externs, before, []⟩ entry.type

structure Place.Clean (place : Place) : Prop where
  prior : LinesKnown place.externs place.prior
  enclosing : ∀ members ∈ place.enclosing, ∀ entry, .field entry ∈ members →
    place.Knows entry.type

theorem Place.Knows.anywhere (knows : place.Knows type) (enclosing : List (List Member)) :
    Place.Knows ⟨place.externs, place.prior, enclosing⟩ type := by
  cases knows with
  | scalar => exact .scalar
  | global simple named => exact .global simple named
  | external simple listed => exact .external simple listed

theorem LinesKnown.earlier (known : LinesKnown externs (front ++ back)) : LinesKnown externs front := by
  intro before entry after split
  exact known before entry (after ++ back) (by rw [split, List.append_assoc, List.cons_append])

theorem LinesKnown.grow (known : LinesKnown externs prior)
    (last : ∀ entry, decl = .field entry → Place.Knows ⟨externs, prior, []⟩ entry.type) :
    LinesKnown externs (prior ++ [decl]) := by
  intro before entry after split
  rcases List.eq_nil_or_concat after with rfl | ⟨middle, final, rfl⟩
  · obtain ⟨rfl, same⟩ := List.append_inj' split rfl
    exact last entry (List.cons.inj same).1
  · rw [List.concat_eq_append, ← List.cons_append, ← List.append_assoc] at split
    exact known before entry middle (List.append_inj' split rfl).1

theorem ending_resolved {decl : Decl} (ends : decl.ending? = some ending) : ending ≠ .unresolved := by
  rintro rfl
  cases decl <;> cases ends

theorem leads_resolved (leads : Leads externs prior type ending) (known : LinesKnown externs prior)
    (knows : Place.Knows ⟨externs, prior, []⟩ type) : ending ≠ .unresolved := by
  induction leads with
  | scalar | external => exact nofun
  | stop _ _ ends => exact ending_resolved ends
  | dotted dotted =>
    cases knows with
    | global simple | external simple => simp [dotted] at simple
  | unknown simple unnamed unlisted =>
    cases knows with
    | global _ named => exact absurd unnamed named
    | external _ listed => exact absurd listed unlisted
  | line simple first rest ih =>
    obtain ⟨after, split⟩ := first.split
    exact ih (LinesKnown.earlier (split ▸ known)) (known _ _ after split)

theorem numeric_resolved {ending : Ending} (tolerated : ending.isTolerated = true)
    (resolved : ending ≠ .unresolved) : ending.isNumeric = true := by
  simpa [Ending.isTolerated, resolved] using tolerated

theorem Place.Clean.within (clean : place.Clean) (earlier : List Member)
    (known : ∀ entry, .field entry ∈ earlier → place.Knows entry.type) :
    (place.within earlier).Clean := by
  refine ⟨clean.prior, List.forall_mem_cons.mpr ⟨?_, ?_⟩⟩
  · exact fun entry member => (known entry member).anywhere _
  · exact fun members stands entry member => (clean.enclosing members stands entry member).anywhere _

theorem Place.Clean.admits (clean : place.Clean) (admits : place.Admits Ending.isTolerated use name) :
    place.Admits Ending.isNumeric use name := by
  cases admits with
  | external simple listed => exact .external simple listed
  | enum simple selects unhidden first => exact .enum simple selects unhidden first
  | member simple nearest leads fits =>
    obtain ⟨inner, members, outer, before, split, _, first⟩ := id nearest
    have knows := clean.enclosing members (by simp [split]) _ first.mem
    have resolved := leads_resolved leads clean.prior (knows.anywhere [])
    exact .member simple nearest leads (numeric_resolved fits resolved)
  | global simple unhidden first leads fits =>
    obtain ⟨after, split⟩ := first.split
    have known := split ▸ clean.prior
    have resolved := leads_resolved leads known.earlier (clean.prior _ _ after split)
    exact .global simple unhidden first leads (numeric_resolved fits resolved)

theorem Place.Clean.grow (clean : (place.within earlier).Clean) (member : Member)
    (known : ∀ entry, member = .field entry → (place.within earlier).Knows entry.type) :
    (place.within (earlier ++ [member])).Clean := by
  have lines : ∀ entry, .field entry ∈ earlier ++ [member] → (place.within earlier).Knows entry.type := by
    intro entry listed
    rcases List.mem_append.mp listed with old | last
    · exact clean.enclosing earlier List.mem_cons_self entry old
    · exact known entry (List.mem_singleton.mp last).symm
  refine ⟨clean.prior, List.forall_mem_cons.mpr ⟨?_, ?_⟩⟩
  · exact fun entry listed => (lines entry listed).anywhere _
  · intro members stands entry listed
    exact (clean.enclosing members (List.mem_cons_of_mem _ stands) entry listed).anywhere _

theorem select_places (listed : site ∈ Select.sites place choice) : site.place = place := by
  rcases List.mem_cons.mp listed with rfl | item
  · rfl
  · obtain ⟨arm, _, inside⟩ := List.mem_flatMap.mp item
    obtain ⟨line, _, rfl⟩ := List.mem_map.mp inside
    rfl

end Clean

mutual

theorem member_clean {place : Place} (clean : place.Clean) (member : Member)
    (sound : ∀ site ∈ member.sites place, site.Sound Ending.isTolerated) :
    ∀ site ∈ member.sites place, site.place.Clean := by
  cases member with
  | field entry => simpa [Member.sites] using clean
  | struct members name close =>
    rw [Member.sites, List.forall_mem_cons] at sound ⊢
    refine ⟨clean, members_clean (clean.within [] (by simp)) members sound.2⟩
  | select choice =>
    intro site listed
    rw [select_places listed]
    exact clean

theorem members_clean {place : Place} (clean : (place.within earlier).Clean) (members : List Member)
    (sound : ∀ site ∈ Member.allSites place earlier members, site.Sound Ending.isTolerated) :
    ∀ site ∈ Member.allSites place earlier members, site.place.Clean := by
  cases members with
  | nil => simp [Member.allSites]
  | cons member rest =>
    rw [Member.allSites, List.forall_mem_append] at sound ⊢
    have further := clean.grow member fun entry same => by
      subst same
      exact (sound.1 _ (List.mem_singleton_self _)).1
    exact ⟨member_clean clean member sound.1, members_clean further rest sound.2⟩

end

theorem decl_clean (known : LinesKnown externs prior) (decl : Decl)
    (sound : ∀ site ∈ decl.sites ⟨externs, prior, []⟩, site.Sound Ending.isTolerated) :
    ∀ site ∈ decl.sites ⟨externs, prior, []⟩, site.place.Clean := by
  have clean : Place.Clean ⟨externs, prior, []⟩ := ⟨known, by simp⟩
  cases decl with
  | external => simp [Decl.sites]
  | field | enum => simpa [Decl.sites] using clean
  | struct members name close => exact member_clean clean (.struct members name close) sound
  | select choice => exact member_clean clean (.select choice) sound

theorem sites_clean (known : LinesKnown externs prior) (decls : List Decl)
    (sound : ∀ site ∈ sitesAfter externs prior decls, site.Sound Ending.isTolerated) :
    ∀ site ∈ sitesAfter externs prior decls, site.place.Clean := by
  induction decls generalizing prior with
  | nil => simp [sitesAfter]
  | cons decl rest ih =>
    rw [sitesAfter, List.forall_mem_append] at sound ⊢
    have further : LinesKnown externs (prior ++ [decl]) := known.grow fun entry same => by
      subst same
      exact (sound.1 _ (List.mem_singleton_self _)).1
    exact ⟨decl_clean known decl sound.1, ih further sound.2⟩

section Follows

variable {place : Place} {allowed other : Ending → Bool}

theorem SizeExpr.Sound.follow {size : SizeExpr}
    (follows : ∀ use name, place.Admits allowed use name → place.Admits other use name)
    (sound : size.Sound allowed place) : size.Sound other place := by
  cases size with
  | literal | power => exact sound
  | reference name => exact follows .size name sound

theorem Bounds.Sound.follow {bounds : Bounds}
    (follows : ∀ use name, place.Admits allowed use name → place.Admits other use name)
    (sound : bounds.Sound allowed place) : bounds.Sound other place := by
  cases bounds with
  | fixed size => exact ⟨sound.1.follow follows, sound.2⟩
  | range low high => exact ⟨sound.1.follow follows, sound.2.1.follow follows, sound.2.2⟩

theorem Node.Sound.follow {node : Node}
    (follows : ∀ use name, place.Admits allowed use name → place.Admits other use name)
    (sound : node.Sound allowed place) : node.Sound other place := by
  cases node with
  | line type bounds close =>
    exact ⟨sound.1, fun given same => (sound.2 given same).follow follows⟩
  | enum | struct => exact sound
  | select choice => exact ⟨follows .selector _ sound.selector, sound.labels⟩

end Follows

theorem Place.Admits.tolerant {place : Place} (admits : place.Admits Ending.isNumeric use name) :
    place.Admits Ending.isTolerated use name := by
  cases admits with
  | external simple listed => exact .external simple listed
  | enum simple selects unhidden first => exact .enum simple selects unhidden first
  | member simple nearest leads fits => exact .member simple nearest leads (by simp [Ending.isTolerated, fits])
  | global simple unhidden first leads fits =>
    exact .global simple unhidden first leads (by simp [Ending.isTolerated, fits])

theorem sites_strict (externs : List String) (decls : List Decl) :
    (∀ site ∈ sitesAfter externs [] decls, site.Sound Ending.isTolerated) ↔
      ∀ site ∈ sitesAfter externs [] decls, site.Sound Ending.isNumeric := by
  constructor
  · intro sound site listed
    have clean := sites_clean (by simp [LinesKnown]) decls sound site listed
    exact (sound site listed).follow fun _ _ => clean.admits
  · intro sound site listed
    exact (sound site listed).follow fun _ _ => Place.Admits.tolerant

end WireFormat
