/-!
# Tables

A table holds a value for each of finitely many names. Its entries keep the order in which their
names came in; giving a name a new value leaves it in its place.
-/

namespace Calculator

structure Table (α : Type) where
  entries : List (String × α)
deriving DecidableEq

namespace Table

variable {α : Type}

def empty : Table α := ⟨[]⟩

def get? (t : Table α) (name : String) : Option α := t.entries.lookup name

def contains (t : Table α) (name : String) : Bool := (t.get? name).isSome

def insert (t : Table α) (name : String) (value : α) : Table α := ⟨put t.entries⟩
where
  put : List (String × α) → List (String × α)
    | []           => [(name, value)]
    | entry :: rest => if entry.1 = name then (name, value) :: rest else entry :: put rest

def erase (t : Table α) (name : String) : Table α := ⟨t.entries.filter (·.1 ≠ name)⟩

-- Of the entries for a name, the last one wins.
def ofList (entries : List (String × α)) : Table α :=
  entries.foldl (fun t (name, value) => t.insert name value) empty

variable {t : Table α} {n m : String} {v : α}

@[simp]
theorem get?_empty : (empty : Table α).get? n = none := rfl

theorem get?_insert : (t.insert n v).get? m = if m = n then some v else t.get? m := by
  simp only [get?, insert]
  induction t.entries
  case nil             => grind [insert.put]
  case cons entry _ hi => grind [insert.put]

@[simp]
theorem get?_insert_self : (t.insert n v).get? n = some v := by
  simp [get?_insert]

theorem get?_insert_of_ne (h : m ≠ n) : (t.insert n v).get? m = t.get? m := by
  simp [get?_insert, h]

theorem get?_erase : (t.erase n).get? m = if m = n then none else t.get? m := by
  simp only [get?, erase]
  induction t.entries
  case nil             => simp
  case cons entry _ hi => grind

end Table

end Calculator
