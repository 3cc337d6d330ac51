import ManySorted.Fault

/-!
The constants of one sort with their signatures, in the order in which they were declared. No key
occurs twice (`Constants.nodup`).
-/

namespace ManySorted

/-- Gives a constant its signature. A key that has a row keeps its place and its name; a new key
comes last. -/
def insertRow (c : Const) (s : Signature) :
    List (Const × Signature) → List (Const × Signature)
  | [] => [(c, s)]
  | (d, t) :: rows => if d.key = c.key then (d, s) :: rows else (d, t) :: insertRow c s rows

theorem mem_keys_insertRow {c : Const} {s : Signature} {rows : List (Const × Signature)}
    {k : ConstKey} (h : k ∈ (insertRow c s rows).map (·.1.key)) :
    k = c.key ∨ k ∈ rows.map (·.1.key) := by
  induction rows with
  | nil => simpa [insertRow] using h
  | cons row rows ih =>
    obtain ⟨d, t⟩ := row
    by_cases hd : d.key = c.key
    · simp only [insertRow, hd, ↓reduceIte, List.map_cons, List.mem_cons] at h
      rcases h with h | h
      · exact .inl h
      · exact .inr (List.mem_cons_of_mem _ h)
    · simp only [insertRow, hd, ↓reduceIte, List.map_cons, List.mem_cons] at h
      rcases h with h | h
      · exact .inr (by simp [h])
      · exact (ih h).imp_right (List.mem_cons_of_mem _)

theorem nodup_keys_insertRow (c : Const) (s : Signature) {rows : List (Const × Signature)}
    (h : (rows.map (·.1.key)).Nodup) : ((insertRow c s rows).map (·.1.key)).Nodup := by
  induction rows with
  | nil => simp [insertRow]
  | cons row rows ih =>
    obtain ⟨d, t⟩ := row
    simp only [List.map_cons, List.nodup_cons] at h
    by_cases hd : d.key = c.key
    · simpa only [insertRow, hd, ↓reduceIte, List.map_cons, List.nodup_cons] using h
    · simp only [insertRow, hd, ↓reduceIte, List.map_cons, List.nodup_cons]
      refine ⟨fun hmem => ?_, ih h.2⟩
      rcases mem_keys_insertRow hmem with e | hmem
      · exact hd e
      · exact h.1 hmem

structure Constants where
  rows : List (Const × Signature)
  nodup : (rows.map (·.1.key)).Nodup

namespace Constants

def empty : Constants := ⟨[], by simp⟩

def size (t : Constants) : Nat := t.rows.length

def insert (t : Constants) (c : Const) (s : Signature) : Constants :=
  ⟨insertRow c s t.rows, nodup_keys_insertRow c s t.nodup⟩

/-- Declares the next operation of a sort; its code is the number of constants before it. -/
def declare (t : Constants) (owner : SortName) (op : Name) (s : Signature) : Constants :=
  t.insert ⟨owner, some op, t.size⟩ s

/-- Declares operations one after the other. -/
def ofOperations (owner : SortName) (ops : List (Name × Signature)) : Constants :=
  ops.foldl (fun t (op, s) => t.declare owner op s) empty

def signature? (t : Constants) (k : ConstKey) : Option Signature :=
  (t.rows.find? (·.1.key = k)).map (·.2)

/-- The first constant that is shown by a name. -/
def named? (t : Constants) (op : Name) : Option Const :=
  (t.rows.find? (·.1.name = some op)).map (·.1)

/-- The first constant that is shown by a name that is known to be there. -/
def named (t : Constants) (op : Name) : Outcome Const :=
  match t.named? op with
  | some c => .ok c
  | none => .error (.unknownOperation op)

end Constants

end ManySorted
