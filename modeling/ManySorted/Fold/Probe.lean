import ManySorted.Fold.Size

/-!
A fold that shows how a run proceeds: it asks for arguments in a chosen order, and each step of its
log has a line of text. The result of an application is one more than the sum of the answers.
-/

namespace ManySorted

/-- The order in which an application asks for its arguments. -/
inductive AskOrder where
  /-- Each once, from the first to the last. -/
  | forward
  /-- Each once, from the last to the first. -/
  | backward
  /-- Each twice in a row, from the first to the last. -/
  | twice
  /-- Given positions, whether the application has them or not. -/
  | positions (is : List Nat)

def AskOrder.of (order : AskOrder) (count : Nat) : List Nat :=
  match order with
  | .forward => List.range count
  | .backward => (List.range count).reverse
  | .twice => (List.range count).flatMap fun i => [i, i]
  | .positions is => is

/-- Asks for arguments in an order and adds the answers. -/
def Fold.probe (order : AskOrder) : Fold Nat where
  onVar _ := .ok 1
  onNative _ _ := .ok 1
  onApp _ count := return ((← (order.of count).mapM Demand.arg).foldl addSizes 1)

def Event.line : Event Nat → String
  | .var x => "var " ++ x
  | .native v s => "native " ++ v.text ++ " " ++ s
  | .enter c count => "enter " ++ c.text ++ " " ++ toString count
  | .leave c r => "exit " ++ c.text ++ " " ++ toString r

end ManySorted
