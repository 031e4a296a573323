namespace ArgTree

-- Named entries, in the order in which their names were first inserted.
abbrev Entries (α : Type u) := List (String × α)

namespace Entries

variable {α : Type u}

def get? (es : Entries α) (key : String) : Option α :=
  (es.find? (·.1 = key)).map (·.2)

-- A new key goes last. A key that is already there keeps its place and gets the new value.
def insert (key : String) (value : α) : Entries α → Entries α
  | []           => [(key, value)]
  | (k, v) :: es => if k = key then (k, value) :: es else (k, v) :: insert key value es

def keys (es : Entries α) : List String :=
  es.map (·.1)

-- Inserts pairs one by one into the empty map.
def ofPairs (pairs : List (String × α)) : Entries α :=
  pairs.foldl (fun es (key, value) => insert key value es) []

theorem get?_insert (es : Entries α) (key k : String) (value : α) :
    get? (insert key value es) k = if k = key then some value else get? es k := by
  induction es
  case nil => simp [insert, get?, List.find?_cons]; grind
  case cons e es hi =>
    simp only [insert]
    split <;> simp_all [get?, List.find?_cons] <;> grind

theorem keys_insert (es : Entries α) (key : String) (value : α) :
    keys (insert key value es) = if key ∈ keys es then keys es else keys es ++ [key] := by
  induction es
  case nil => simp [insert, keys]
  case cons e es hi =>
    simp only [insert]
    split
    case isTrue  => simp_all [keys]
    case isFalse => simp_all [keys]; grind

theorem mem_insert {es : Entries α} (h : e ∈ insert key value es) : e = (key, value) ∨ e ∈ es := by
  induction es
  case nil => simpa [insert] using h
  case cons e' es hi =>
    simp only [insert] at h
    split at h
    case isTrue hk => simp_all; grind
    case isFalse   => simp_all; grind

theorem nodup_keys_insert {es : Entries α} (h : (keys es).Nodup) (key : String) (value : α) :
    (keys (insert key value es)).Nodup := by
  rw [keys_insert]
  split
  case isTrue => exact h
  case isFalse hk =>
    exact List.nodup_append.mpr ⟨h, by simp, by simp; grind⟩

theorem insert_ne_nil (es : Entries α) (key : String) (value : α) : insert key value es ≠ [] := by
  cases es <;> simp [insert]
  split <;> simp

theorem insert_of_not_mem {es : Entries α} (h : key ∉ keys es) (value : α) :
    insert key value es = es ++ [(key, value)] := by
  induction es
  case nil => rfl
  case cons e es hi =>
    simp only [keys, List.map_cons, List.mem_cons, not_or] at h
    simp only [insert, if_neg (Ne.symm h.left), hi h.right, List.cons_append]

end Entries

end ArgTree
