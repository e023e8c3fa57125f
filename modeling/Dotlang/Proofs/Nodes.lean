import Dotlang.Statement

/-!
# The statements of a tree

`nodes` lists the statements that a tree consists of, at any depth and in the order of the source. A
property of a tree is a property of each of its nodes, which the accessors below take apart.
-/

namespace Dotlang

mutual

/-- A statement and the statements inside it. -/
def Statement.nodes : Statement → List Statement
  | .block pos body => .block pos body :: bodyNodes body
  | .declare pos d => [.declare pos d]
  | .assign pos name value => [.assign pos name value]
  | .call pos name args builtin => [.call pos name args builtin]
  | .function pos name params body => .function pos name params body :: bodyNodes body
  | .conditional pos cond body alternatives =>
    .conditional pos cond body alternatives :: (bodyNodes body ++ alternatives.nodes)
  | .whileLoop pos cond body => .whileLoop pos cond body :: bodyNodes body
  | .doWhile pos body cond => .doWhile pos body cond :: bodyNodes body
  | .counting pos init cond step body => .counting pos init cond step body :: bodyNodes body
  | .brk pos => [.brk pos]

/-- The statements of a body and those inside them. -/
def bodyNodes : List Statement → List Statement
  | [] => []
  | s :: ss => s.nodes ++ bodyNodes ss

/-- The statements inside the further branches of a conditional. -/
def Alternatives.nodes : Alternatives → List Statement
  | .done => []
  | .otherwise body => bodyNodes body
  | .branch _ body rest => bodyNodes body ++ rest.nodes

end

theorem Statement.self_mem_nodes (s : Statement) : s ∈ s.nodes := by
  cases s <;> simp [Statement.nodes]

theorem bodyNodes_append (ss ts : List Statement) : bodyNodes (ss ++ ts) = bodyNodes ss ++ bodyNodes ts := by
  induction ss with
  | nil => rfl
  | cons s ss ih => rw [List.cons_append, bodyNodes, bodyNodes, ih, List.append_assoc]

/-- The conditions of the further branches. -/
def Alternatives.conds : Alternatives → List Chain
  | .branch cond _ rest => cond.toList ++ rest.conds
  | _ => []

def Argument.chain? : Argument → Option Chain
  | value c => some c
  | type _ => none

/-- The chain that a step assigns. -/
def LoopStep.value? : LoopStep → Option Chain
  | assign _ value => value
  | compound .. => none

namespace Statement

/-- The conditions that a statement tests itself. -/
def conds : Statement → List Chain
  | conditional _ cond _ alternatives => cond.toList ++ alternatives.conds
  | whileLoop _ cond _ | doWhile _ _ cond | counting _ _ cond _ _ => cond.toList
  | _ => []

/-- The chains whose values a statement takes itself: those of declarations, assignments, steps and arguments. -/
def values : Statement → List Chain
  | declare _ d => d.value.toList
  | assign _ _ value => value.toList
  | call _ _ args _ => args.filterMap Argument.chain?
  | counting _ init _ step _ => (init.bind Declaration.value).toList ++ (step.bind LoopStep.value?).toList
  | _ => []

/-- Whether a statement calls something other than a built-in function. -/
def isUserCall : Statement → Bool
  | call _ _ _ builtin => !builtin
  | _ => false

/-- Whether a statement calls a function of this name. -/
def isCallOf (name : String) : Statement → Bool
  | call _ called _ _ => called == name
  | _ => false

def isFunction : Statement → Bool
  | function .. => true
  | _ => false

end Statement

end Dotlang
