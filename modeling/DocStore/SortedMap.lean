import DocStore.Assoc

namespace DocStore

-- A finite map that enumerates its keys in ascending order.
structure SortedMap (κ α : Type) [LT κ] where
  entries : List (κ × α)
  ascending : Assoc.Ascending entries

namespace SortedMap

variable {κ α β : Type} [LT κ]

-- The map that holds nothing.
def empty : SortedMap κ α := ⟨[], List.Pairwise.nil⟩

instance : Inhabited (SortedMap κ α) := ⟨empty⟩

instance : EmptyCollection (SortedMap κ α) := ⟨empty⟩

def toList (m : SortedMap κ α) : List (κ × α) := m.entries

def keys (m : SortedMap κ α) : List κ := m.entries.map (·.1)

def size (m : SortedMap κ α) : Nat := m.entries.length

-- The entries whose key satisfies a test.
def filterKeys (m : SortedMap κ α) (p : κ → Bool) : SortedMap κ α :=
  ⟨m.entries.filter (fun e => p e.1), m.ascending.filter _⟩

-- Applies a function to every value.
def mapValues (m : SortedMap κ α) (f : α → β) : SortedMap κ β :=
  ⟨m.entries.map (fun e => (e.1, f e.2)), by
    simpa only [Assoc.Ascending, List.pairwise_map] using m.ascending⟩

variable [DecidableEq κ]

def get? (m : SortedMap κ α) (key : κ) : Option α := Assoc.get? key m.entries

def contains (m : SortedMap κ α) (key : κ) : Bool := (m.get? key).isSome

@[simp] theorem get?_empty (key : κ) : (empty : SortedMap κ α).get? key = none := rfl

variable [LE κ] [DecidableLT κ] [Std.IsLinearOrder κ] [Std.LawfulOrderLT κ]

def insert (m : SortedMap κ α) (key : κ) (value : α) : SortedMap κ α :=
  ⟨Assoc.insert key value m.entries, Assoc.ascending_insert key value m.ascending⟩

def erase (m : SortedMap κ α) (key : κ) : SortedMap κ α :=
  ⟨Assoc.erase key m.entries, Assoc.ascending_erase key m.ascending⟩

-- Writes a value, or erases the key where there is none.
def set (m : SortedMap κ α) (key : κ) : Option α → SortedMap κ α
  | some value => m.insert key value
  | none => m.erase key

-- Performs a batch of writes, in order.
def setAll (m : SortedMap κ α) (writes : List (κ × Option α)) : SortedMap κ α :=
  writes.foldl (fun acc w => acc.set w.1 w.2) m

def ofList (entries : List (κ × α)) : SortedMap κ α :=
  ⟨Assoc.ofList entries, Assoc.ascending_ofList entries⟩

theorem get?_insert (m : SortedMap κ α) (key other : κ) (value : α) :
    (m.insert key value).get? other = if key = other then some value else m.get? other :=
  Assoc.get?_insert key other value m.entries

omit [LE κ] [DecidableLT κ] [Std.IsLinearOrder κ] [Std.LawfulOrderLT κ] in
theorem get?_erase (m : SortedMap κ α) (key other : κ) :
    (m.erase key).get? other = if key = other then none else m.get? other :=
  Assoc.get?_erase key other m.entries

theorem get?_set (m : SortedMap κ α) (key other : κ) (value : Option α) :
    (m.set key value).get? other = if key = other then value else m.get? other := by
  cases value with
  | some v => exact get?_insert m key other v
  | none => exact get?_erase m key other

omit [DecidableLT κ] [Std.IsLinearOrder κ] in
theorem get?_eq_some_iff (m : SortedMap κ α) {key : κ} {value : α} :
    m.get? key = some value ↔ (key, value) ∈ m.toList :=
  Assoc.get?_eq_some_iff m.ascending

-- A map is determined by its look-ups.
omit [DecidableLT κ] in
theorem ext_get? {a b : SortedMap κ α} (h : ∀ key, a.get? key = b.get? key) : a = b := by
  have := Assoc.eq_of_get? a.ascending b.ascending h
  cases a; cases b; cases this; rfl

end SortedMap

end DocStore
