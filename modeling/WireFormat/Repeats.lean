namespace WireFormat

-- Each item with whether its key occurred before it, among `seen` or in the list.
def marked [BEq β] (key : α → β) (seen : List β) : List α → List (α × Bool)
  | [] => []
  | item :: rest => (item, seen.contains (key item)) :: marked key (key item :: seen) rest

-- The items whose key occurs neither among `seen` nor earlier in the list, and those whose
-- key does; both in order.
def firstsAfter [BEq β] (key : α → β) (seen : List β) (items : List α) : List α :=
  ((marked key seen items).filter fun item => !item.2).map Prod.fst

def repeatsAfter [BEq β] (key : α → β) (seen : List β) (items : List α) : List α :=
  ((marked key seen items).filter fun item => item.2).map Prod.fst

def firsts [BEq β] (key : α → β) (items : List α) : List α := firstsAfter key [] items

def repeats [BEq β] (key : α → β) (items : List α) : List α := repeatsAfter key [] items

end WireFormat
