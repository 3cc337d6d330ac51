import ManySorted.Language.Stored
import ManySorted.Proofs.Terms.Same
import ManySorted.Sorts.Units
import ManySorted.Sorts.Chars
import ManySorted.Sorts.ArraySort
import ManySorted.Sorts.OptionalSort
import ManySorted.Sorts.RecordSort
import ManySorted.Sorts.EnumSort

/-!
The names of constants are for display only. Checking does not look at them, and a sort of the
library shows them in the text of a fault and nowhere else.
-/

namespace ManySorted

/-- A sort computes the same for constants with equal keys, whatever fault it may stop with. -/
def SortDef.IgnoresNames (s : SortDef) : Prop :=
  ∀ (c d : Const) (n : Nat) (answer : Nat → Outcome Value), c.key = d.key →
    ((s.eval c n).resolve answer).toOption = ((s.eval d n).resolve answer).toOption

inductive SortDef.FromLibrary : SortDef → Prop
  | unit (stamp : Nat) : FromLibrary (Units.sort stamp)
  | bool (stamp : Nat) : FromLibrary (Bools.sort stamp)
  | int (stamp : Nat) : FromLibrary (Ints.sort stamp)
  | char (stamp : Nat) : FromLibrary (Chars.sort stamp)
  | array (a : ArraySort) : FromLibrary a.toSortDef
  | optional (o : OptionalSort) : FromLibrary o.toSortDef
  | record (r : RecordSort) : FromLibrary r.toSortDef
  | enum (e : EnumSort) : FromLibrary e.toSortDef

theorem SortDef.ignoresNames_of {s : SortDef}
    (h : ∀ owner code (name name' : Option Name) n answer,
      ((s.eval ⟨owner, name, code⟩ n).resolve answer).toOption =
        ((s.eval ⟨owner, name', code⟩ n).resolve answer).toOption) : s.IgnoresNames := by
  rintro ⟨owner, name, code⟩ ⟨owner', name', code'⟩ n answer hkey
  obtain ⟨rfl, rfl⟩ := ConstKey.mk.inj hkey
  exact h owner code name name' n answer

theorem BuiltIn.ignoresNames {stamp : Nat} {name : SortName} {ops : List Operation}
    {kind : Value.Variant} {default? : Option Value} :
    (sort stamp name ops kind default?).IgnoresNames := by
  refine SortDef.ignoresNames_of fun owner code _ _ n answer => ?_
  change ((eval name ops _ n).resolve answer).toOption = ((eval name ops _ n).resolve answer).toOption
  by_cases howner : owner = name
  · rw [eval, eval, if_pos howner, if_pos howner]
    cases ops[code]? <;> rfl
  · rw [eval, eval, if_neg howner, if_neg howner]
    rfl

/-- Sorts of the library dispatch on the owner and the code of a constant. -/
theorem SortDef.FromLibrary.ignoresNames {s : SortDef} (h : s.FromLibrary) : s.IgnoresNames := by
  cases h with
  | unit stamp => exact BuiltIn.ignoresNames
  | bool stamp => exact BuiltIn.ignoresNames
  | int stamp => exact BuiltIn.ignoresNames
  | char stamp => exact BuiltIn.ignoresNames
  | array a =>
      refine SortDef.ignoresNames_of fun owner code _ _ n answer => ?_
      change ((a.eval _ n).resolve answer).toOption = ((a.eval _ n).resolve answer).toOption
      by_cases howner : owner = a.name
      · rw [ArraySort.eval, ArraySort.eval, if_pos howner, if_pos howner]
        match code with
        | 0 | 1 | 2 | 3 | 4 | _ + 5 => rfl
      · rw [ArraySort.eval, ArraySort.eval, if_neg howner, if_neg howner]
        rfl
  | optional o =>
      refine SortDef.ignoresNames_of fun owner code _ _ n answer => ?_
      change ((o.eval _ n).resolve answer).toOption = ((o.eval _ n).resolve answer).toOption
      by_cases howner : owner = o.name
      · rw [OptionalSort.eval, OptionalSort.eval, if_pos howner, if_pos howner]
        match code with
        | 0 | 1 | 2 | _ + 3 => rfl
      · rw [OptionalSort.eval, OptionalSort.eval, if_neg howner, if_neg howner]
        rfl
  | record r =>
      refine SortDef.ignoresNames_of fun owner code _ _ n answer => ?_
      change ((r.eval _ n).resolve answer).toOption = ((r.eval _ n).resolve answer).toOption
      by_cases howner : owner = r.name
      · rw [RecordSort.eval, RecordSort.eval, if_pos howner, if_pos howner]
        cases code with
        | zero => rfl
        | succ i =>
            by_cases hi : i < r.fields.length
            · simp only [if_pos hi]
            · simp only [if_neg hi]
              rfl
      · rw [RecordSort.eval, RecordSort.eval, if_neg howner, if_neg howner]
        rfl
  | enum e => exact fun c d n answer _ => rfl

theorem Fold.sortOf_ignoresNames (L : Language) (G : SortEnv) : (sortOf L G).IgnoresNames := by
  intro c d n answer hkey
  have hsig : L.signature? c = L.signature? d := by
    rw [Language.signature?, hkey, Language.signature?]
  simp only [sortOf, hsig]

/-- Evaluation gives a value or not, and which, by the keys of the constants. -/
theorem Fold.eval_determines {L : Language}
    (hL : ∀ name s, L.sort? name = some s → s.FromLibrary ∨ s.IgnoresNames) (V : ValueEnv) :
    (eval L V).Determines Except.toOption := by
  refine ⟨fun {c d} n answer hkey => ?_, fun c n {answer answer'} h => ?_⟩
  · have howner : c.owner = d.owner := congrArg ConstKey.owner hkey
    simp only [eval, howner]
    cases hs : L.sort? d.owner with
    | none => rfl
    | some s =>
        have hignores : s.IgnoresNames := (hL _ s hs).elim SortDef.FromLibrary.ignoresNames id
        exact hignores c d n answer hkey
  · exact ((eval L V).onApp c n).toOption_resolve h

end ManySorted
