/-!
# Finite maps

A `Table` is a finite map kept as a list of entries, one for each key. The order of the entries is
the order in which their keys were first put in; nothing but an explicit sort shows it. Keys are
compared with `==`, which need not be equality: two terms may count as the same key without being
identical.

`insert` replaces an entry, key included; `insertNew` keeps an entry that is already there.
-/

namespace Concolic

structure Table (α β : Type) where
  entries : List (α × β)

namespace Table

variable {α β : Type}

def empty : Table α β := ⟨[]⟩

instance : Inhabited (Table α β) := ⟨empty⟩

instance : EmptyCollection (Table α β) := ⟨empty⟩

def size (t : Table α β) : Nat := t.entries.length

def keys (t : Table α β) : List α := t.entries.map Prod.fst

variable [BEq α]

/-- The value of a key. -/
def get? (t : Table α β) (k : α) : Option β := (t.entries.find? fun e => e.1 == k).map Prod.snd

def contains (t : Table α β) (k : α) : Bool := t.entries.any fun e => e.1 == k

/-- Puts in an entry, in place of the one with the same key if there is one. -/
def insert (t : Table α β) (k : α) (v : β) : Table α β :=
  if t.contains k then ⟨t.entries.map fun e => if e.1 == k then (k, v) else e⟩
  else ⟨t.entries ++ [(k, v)]⟩

/-- Puts in an entry unless the key is there. -/
def insertNew (t : Table α β) (k : α) (v : β) : Table α β :=
  if t.contains k then t else ⟨t.entries ++ [(k, v)]⟩

/-- The table of a list of entries; of two entries with the same key the later one counts. -/
def ofList (es : List (α × β)) : Table α β := es.foldl (fun t e => t.insert e.1 e.2) empty

/-- The entries of both tables; where both have a key, those of the first. -/
def union (t u : Table α β) : Table α β :=
  ⟨t.entries ++ u.entries.filter fun e => !t.contains e.1⟩

/-- The tables are the same finite map, with values compared by `==`. -/
def sameAs [BEq β] (t u : Table α β) : Bool :=
  t.size == u.size && t.entries.all fun e =>
    match u.get? e.1 with
    | some v => e.2 == v
    | none => false

theorem contains_eq_isSome_get? (t : Table α β) (k : α) : t.contains k = (t.get? k).isSome := by
  rw [Bool.eq_iff_iff]
  simp [contains, get?, List.find?_isSome]

end Table

end Concolic
