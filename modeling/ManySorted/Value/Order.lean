import ManySorted.Value

/-!
The order of values. Values of different kinds are in the order of their constructors; slices
are in lexicographic order, an absent value comes before every present one.
-/

namespace ManySorted.Value

mutual

/-- Compares the contents of two values of one constructor, and the ranks of any other two. -/
def order : Value → Value → Ordering
  | .bool a, .bool b => compare a b
  | .int a, .int b => compare a b
  | .char a, .char b => compare a b
  | .tag a, .tag b => compare a b
  | .slice xs, .slice ys => orderItems xs ys
  | .present v, .present w => order v w
  | v, w => compare v.rank w.rank

/-- The first difference decides; a proper initial part comes first. -/
def orderItems : List Value → List Value → Ordering
  | [], [] => .eq
  | [], _ :: _ => .lt
  | _ :: _, [] => .gt
  | x :: xs, y :: ys => (order x y).then (orderItems xs ys)

end

instance : Ord Value := ⟨order⟩

def sorted (vs : List Value) : List Value := vs.mergeSort fun v w => (order v w).isLE

end ManySorted.Value
