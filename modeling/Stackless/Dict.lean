/-!
# Dictionaries

A dictionary is a list of keyed entries. Putting a key that is present replaces its entry in
place, so the entries keep the order in which their keys first appeared.
-/

namespace Stackless

/-- A finite map in insertion order. -/
structure Dict (κ : Type) (ν : Type) where
  entries : List (κ × ν) := []

namespace Dict

variable {κ ν : Type}

instance : Inhabited (Dict κ ν) := ⟨{}⟩

section
variable [DecidableEq κ]

/-- The entry of a key in a list of keyed entries. -/
def find (k : κ) : List (κ × ν) → Option ν
  | [] => none
  | (k', v) :: rest => if k' = k then some v else find k rest

/-- Replace the entry of a key, or add one at the end. -/
def replace (k : κ) (v : ν) : List (κ × ν) → List (κ × ν)
  | [] => [(k, v)]
  | (k', v') :: rest => if k' = k then (k, v) :: rest else (k', v') :: replace k v rest

def get? (d : Dict κ ν) (k : κ) : Option ν := find k d.entries

def put (d : Dict κ ν) (k : κ) (v : ν) : Dict κ ν := ⟨replace k v d.entries⟩

def contains (d : Dict κ ν) (k : κ) : Bool := (d.get? k).isSome

theorem find_replace (k k' : κ) (v : ν) (entries : List (κ × ν)) :
    find k' (replace k v entries) = if k = k' then some v else find k' entries := by
  induction entries with
  | nil => simp [replace, find]
  | cons head rest ih =>
    obtain ⟨k₀, v₀⟩ := head
    simp only [replace]
    split
    · subst_vars
      simp only [find]
      split <;> simp_all
    · simp only [find, ih]
      split <;> split <;> simp_all

theorem get?_put (d : Dict κ ν) (k k' : κ) (v : ν) :
    (d.put k v).get? k' = if k = k' then some v else d.get? k' :=
  find_replace k k' v d.entries

@[simp] theorem get?_put_self (d : Dict κ ν) (k : κ) (v : ν) : (d.put k v).get? k = some v := by
  simp [get?_put]

theorem get?_put_of_ne (d : Dict κ ν) {k k' : κ} (v : ν) (h : k ≠ k') :
    (d.put k v).get? k' = d.get? k' := by
  simp [get?_put, h]

end

def size (d : Dict κ ν) : Nat := d.entries.length

def isEmpty (d : Dict κ ν) : Bool := d.entries.isEmpty

end Dict

end Stackless
