import CS24.Machine.Transition

/-!
# TeenyBASIC programs

The AST of `ast.h` and what a program means. A statement runs in an environment of
64-bit variables; a program is a list of statements, and running it keeps the
statements still to come. A jump continues after the statement that holds the
label, also when the label is inside an `IF`.
-/

namespace CS24.TeenyBasic

/-- The nodes of `ast.h`, by `node_type_t`. -/
inductive Node where
  | num (value : Int64)
  | binaryOp (op : Char) (left right : Node)
  | var (name : Char)
  | print (expr : Node)
  | letVar (name : Char) (value : Node)
  | label (label : String)
  | goto (label : String)
  | cond (condition ifBranch : Node)

namespace Node

def IsExpr : Node → Prop
  | num _ => True
  | var name => name.isUpper
  | binaryOp op left right => op ∈ ['+', '-', '*', '/'] ∧ left.IsExpr ∧ right.IsExpr
  | _ => False

def IsComparison : Node → Prop
  | binaryOp op left right => op ∈ ['<', '=', '>'] ∧ left.IsExpr ∧ right.IsExpr
  | _ => False

def IsStatement : Node → Prop
  | print expr => expr.IsExpr
  | letVar name value => name.isUpper ∧ value.IsExpr
  | label l => l ≠ ""
  | goto _ => True
  | cond condition ifBranch => condition.IsComparison ∧ ifBranch.IsStatement
  | _ => False

/-- The labels a statement defines, in it or in its `IF` branch. -/
def labels : Node → List String
  | label l => [l]
  | cond _ ifBranch => ifBranch.labels
  | _ => []

def targets : Node → List String
  | goto l => [l]
  | cond _ ifBranch => ifBranch.targets
  | _ => []

/-- The assembler takes the labels as symbols. -/
def Plain (st : Node) : Prop :=
  ∀ l ∈ st.labels, ∀ c ∈ l.toList, c.isAlphanum ∨ c ∈ ['_', '.', '$']

end Node

/-- The labels can be assembled, are pairwise distinct and include every `GOTO` target. -/
structure WellFormed (prog : List Node) : Prop where
  statements : ∀ st ∈ prog, st.IsStatement
  plain : ∀ st ∈ prog, st.Plain
  distinct : (prog.flatMap Node.labels).Nodup
  defined : ∀ st ∈ prog, ∀ l ∈ st.targets, l ∈ prog.flatMap Node.labels

abbrev Env := Char → Int64

/-- `none` is a division by zero or of the least value by -1. -/
def evalOp (op : Char) (l r : Int64) : Option Int64 :=
  match op with
  | '+' => some (l + r)
  | '-' => some (l - r)
  | '*' => some (l * r)
  | '/' => if r = 0 ∨ l = Int64.minValue ∧ r = -1 then none else some (l / r)
  | _ => none

def eval (env : Env) : Node → Option Int64
  | .num value => some value
  | .var name => some (env name)
  | .binaryOp op left right => do evalOp op (← eval env left) (← eval env right)
  | _ => none

def compareOp (op : Char) (l r : Int64) : Bool :=
  match op with
  | '<' => decide (l < r)
  | '>' => decide (r < l)
  | '=' => l == r
  | _ => false

def evalComparison (env : Env) : Node → Option Bool
  | .binaryOp op left right => do return compareOp op (← eval env left) (← eval env right)
  | _ => none

def Divides (env : Env) : Node → Prop
  | .binaryOp op left right => Divides env left ∨ Divides env right ∨
      ∃ l r, eval env left = some l ∧ eval env right = some r ∧ op = '/' ∧
        (r = 0 ∨ l = Int64.minValue ∧ r = -1)
  | .print expr => Divides env expr
  | .letVar _ value => Divides env value
  | .cond condition _ => Divides env condition
  | _ => False

structure Config where
  rest : List Node
  env : Env
  output : List Int

def findLabel (l : String) : List Node → Option (List Node)
  | [] => none
  | st :: rest => if l ∈ st.labels then some rest else findLabel l rest

def step (prog : List Node) (c : Config) : Option Config :=
  match c.rest with
  | [] => none
  | .print expr :: rest =>
    (eval c.env expr).map fun v => ⟨rest, c.env, c.output ++ [v.toInt]⟩
  | .letVar name value :: rest =>
    (eval c.env value).map fun v => ⟨rest, Function.update c.env name v, c.output⟩
  | .label _ :: rest => some ⟨rest, c.env, c.output⟩
  | .goto l :: _ => (findLabel l prog).map fun rest => ⟨rest, c.env, c.output⟩
  | .cond condition ifBranch :: rest =>
    (evalComparison c.env condition).map fun holds =>
      ⟨if holds then ifBranch :: rest else rest, c.env, c.output⟩
  | _ => none

inductive Stop where
  | finished
  | trapped

def Config.Stopped (c : Config) : Stop → Prop
  | .finished => c.rest = []
  | .trapped => ∃ st rest, c.rest = st :: rest ∧ Divides c.env st

theorem Config.Stopped.unique {c : Config} {i j : Stop} (hi : c.Stopped i) (hj : c.Stopped j) :
    i = j := by
  cases i <;> cases j <;> first | rfl | simp_all [Config.Stopped]

theorem evalOp_eq_none {op : Char} {l r : Int64} (hop : op ∈ ['+', '-', '*', '/']) :
    evalOp op l r = none ↔ op = '/' ∧ (r = 0 ∨ l = Int64.minValue ∧ r = -1) := by
  simp only [List.mem_cons, List.not_mem_nil, or_false] at hop
  rcases hop with rfl | rfl | rfl | rfl
  iterate 3 simp [evalOp]
  by_cases h : r = 0 ∨ l = Int64.minValue ∧ r = -1 <;> simp only [evalOp, if_pos, h] <;> simp

theorem eval_eq_none {env : Env} {e : Node} (he : e.IsExpr) :
    eval env e = none ↔ Divides env e := by
  induction e with
  | binaryOp op left right ihl ihr =>
    obtain ⟨hop, hl, hr⟩ := he
    have ihl := ihl hl
    have ihr := ihr hr
    cases hel : eval env left with
    | none => simp [eval, Divides, hel, ihl.mp hel]
    | some l =>
      cases her : eval env right with
      | none => simp [eval, Divides, hel, her, ihr.mp her]
      | some r =>
        have hnl : ¬ Divides env left := fun h => by simp [ihl.mpr h] at hel
        have hnr : ¬ Divides env right := fun h => by simp [ihr.mpr h] at her
        simp [eval, Divides, hel, her, hnl, hnr, evalOp_eq_none hop]
  | num | var => simp [eval, Divides]
  | print | letVar | label | goto | cond => exact he.elim

end CS24.TeenyBasic
