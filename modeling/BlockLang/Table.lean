/-!
# Tables

A finite map that remembers the order in which its keys first arrived. Writing to a key that is
present keeps its place; a new key goes to the end. Hashes of the language, instance variables,
method tables, globals and constants are all tables.
-/

namespace BlockLang

/-- Pairs in the order in which their keys first arrived. -/
structure Table (κ α : Type) where
  entries : List (κ × α) := []
deriving Repr

namespace Table

variable {κ α : Type}

instance : Inhabited (Table κ α) := ⟨{}⟩

/-- The value of the first pair with key `k`. -/
def get? [BEq κ] (t : Table κ α) (k : κ) : Option α :=
  t.entries.lookup k

/-- Whether `k` has a value. -/
def contains [BEq κ] (t : Table κ α) (k : κ) : Bool :=
  (t.get? k).isSome

/-- Writes `v` at `k` in a list of pairs, at the end when `k` is new. -/
def put [BEq κ] (k : κ) (v : α) : List (κ × α) → List (κ × α)
  | [] => [(k, v)]
  | (k', v') :: rest => if k == k' then (k', v) :: rest else (k', v') :: put k v rest

/-- The table with `v` at `k`. -/
def insert [BEq κ] (t : Table κ α) (k : κ) (v : α) : Table κ α :=
  ⟨put k v t.entries⟩

/-- The table with every pair of `other` written to it, in `other`'s order. -/
def merge [BEq κ] (t other : Table κ α) : Table κ α :=
  other.entries.foldl (fun t p => t.insert p.1 p.2) t

/-- The pairs whose key satisfies `keep`, in order. -/
def filterKeys (t : Table κ α) (keep : κ → Bool) : Table κ α :=
  ⟨t.entries.filter fun p => keep p.1⟩

def keys (t : Table κ α) : List κ :=
  t.entries.map Prod.fst

def values (t : Table κ α) : List α :=
  t.entries.map Prod.snd

def size (t : Table κ α) : Nat :=
  t.entries.length

def isEmpty (t : Table κ α) : Bool :=
  t.entries.isEmpty

end Table

end BlockLang
