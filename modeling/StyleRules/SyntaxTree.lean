import StyleRules.Text.Basic

namespace StyleRules

/-- A node of a syntax tree: its kind, the byte offsets where it starts and stops, and its
children from left to right. -/
inductive SyntaxTree where
  | node (kind : Text) (start stop : Int) (children : List SyntaxTree)
  deriving Repr, Inhabited

namespace SyntaxTree

def kind : SyntaxTree → Text
  | node k _ _ _ => k

def start : SyntaxTree → Int
  | node _ s _ _ => s

def stop : SyntaxTree → Int
  | node _ _ s _ => s

def children : SyntaxTree → List SyntaxTree
  | node _ _ _ cs => cs

mutual

/-- A node and everything below it: each node before its children, children from left to
right. -/
def preorder : SyntaxTree → List SyntaxTree
  | node k s e cs => node k s e cs :: preorderAll cs

def preorderAll : List SyntaxTree → List SyntaxTree
  | [] => []
  | t :: ts => preorder t ++ preorderAll ts

end

/-- Number of nodes on a stack of trees. -/
def weight (stack : List SyntaxTree) : Nat := (preorderAll stack).length

theorem preorderAll_append (ts us : List SyntaxTree) :
    preorderAll (ts ++ us) = preorderAll ts ++ preorderAll us := by
  induction ts with
  | nil => simp [preorderAll]
  | cons t ts ih => simp [preorderAll, ih]

/-- Visits the trees of a stack, top first: a node is taken off, and its children are put on in
its place. -/
def visit : List SyntaxTree → List SyntaxTree
  | [] => []
  | t :: rest => t :: visit (t.children ++ rest)
termination_by stack => weight stack
decreasing_by
  cases t with
  | node k s e cs => simp [weight, preorderAll, preorder, children, preorderAll_append]

/-- The nodes of a tree in document order; only those of one kind, if a kind is given. -/
def nodes (t : SyntaxTree) (ofKind : Option Text := none) : List SyntaxTree :=
  (visit [t]).filter fun n => ofKind.all (· = n.kind)

end SyntaxTree

namespace Comparison

/-- The kind of a comparison chain. -/
def chainKind : Text := "comparison_operator".toList

/-- The kind of an operand that is nothing but `None`. -/
def noneKind : Text := "none".toList

end Comparison

end StyleRules
