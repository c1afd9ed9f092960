/-! # Records

    Named fields in the order in which their names first appeared.  Writing a
    name a second time replaces the value and keeps the place. -/

namespace ChainCodec

abbrev Record (α : Type) : Type := List (String × α)

namespace Record

variable {α : Type}

def get? (name : String) (r : Record α) : Option α := r.lookup name

def keys (r : Record α) : List String := r.map Prod.fst

/-- A name that is there keeps its place, and a new one goes last. -/
def insert (name : String) (value : α) : Record α → Record α
  | [] => [(name, value)]
  | (n, v) :: r => if n = name then (name, value) :: r else (n, v) :: insert name value r

/-- The record that results from writing the fields one after the other. -/
def ofList (fields : List (String × α)) : Record α :=
  fields.foldl (fun r f => insert f.1 f.2 r) []

@[simp] theorem get?_nil (name : String) : get? name ([] : Record α) = none := rfl

theorem get?_cons (name n : String) (v : α) (r : Record α) :
    get? name ((n, v) :: r) = if n = name then some v else get? name r := by
  by_cases h : n = name
  · subst h
    simp [get?]
  · have h' : (name == n) = false := by simpa using fun e => h (Eq.symm e)
    simp only [get?, List.lookup_cons, h', h, if_false]

@[simp] theorem get?_insert_self (name : String) (value : α) (r : Record α) :
    get? name (insert name value r) = some value := by
  induction r with
  | nil => simp [insert, get?_cons]
  | cons f r ih =>
    obtain ⟨n, v⟩ := f
    by_cases h : n = name
    · simp [insert, h, get?_cons]
    · simp [insert, h, get?_cons, ih]

/-- New names go behind all others. -/
theorem insert_of_not_mem {name : String} {r : Record α} (value : α)
    (h : name ∉ keys r) : insert name value r = r ++ [(name, value)] := by
  induction r with
  | nil => rfl
  | cons f r ih =>
    simp only [keys, List.map_cons, List.mem_cons, not_or] at h
    have h' : ¬ f.1 = name := fun e => h.1 e.symm
    simp [insert, h', ih h.2]

end Record

end ChainCodec
