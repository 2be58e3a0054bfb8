import CS24.TeenyBasic.Grammar

/-!
# TeenyBASIC texts

A program as it is written: its statements with the blanks between their tokens. The levels
of infix expressions are those of the usual grammar, so a text has at least the parentheses
that left associativity and the precedence of `*` and `/` require.
-/

namespace CS24.TeenyBasic

abbrev Blanks := List Char

inductive Sign where
  | none
  | plus
  | minus

def Sign.text : Sign → List Char
  | .none => []
  | .plus => ['+']
  | .minus => ['-']

def Sign.apply : Sign → Nat → Int
  | .minus, n => -n
  | _, n => n

inductive Level where
  | factor
  | term
  | expression

inductive Infix : Level → Type where
  | num (sign : Sign) (magnitude : Nat) : Infix .factor
  | var (name : Char) : Infix .factor
  | paren (before : Blanks) (e : Infix .expression) (after : Blanks) : Infix .factor
  | factor (f : Infix .factor) : Infix .term
  | mul (left : Infix .term) (before : Blanks) (op : Char) (after : Blanks)
      (right : Infix .factor) : Infix .term
  | term (t : Infix .term) : Infix .expression
  | add (left : Infix .expression) (before : Blanks) (op : Char) (after : Blanks)
      (right : Infix .term) : Infix .expression

namespace Infix

variable {k : Level}

def text : {k : Level} → Infix k → List Char
  | _, num sign magnitude => sign.text ++ Nat.toDigits 10 magnitude
  | _, var name => [name]
  | _, paren before e after => '(' :: (before ++ e.text ++ after ++ [')'])
  | _, factor f => f.text
  | _, mul left before op after right => left.text ++ before ++ op :: (after ++ right.text)
  | _, term t => t.text
  | _, add left before op after right => left.text ++ before ++ op :: (after ++ right.text)

def node : {k : Level} → Infix k → Node
  | _, num sign magnitude => .num (.ofInt (sign.apply magnitude))
  | _, var name => .var name
  | _, paren _ e _ => e.node
  | _, factor f => f.node
  | _, mul left _ op _ right => .binaryOp op left.node right.node
  | _, term t => t.node
  | _, add left _ op _ right => .binaryOp op left.node right.node

def EndsInNumber : {k : Level} → Infix k → Prop
  | _, num _ _ => True
  | _, var _ => False
  | _, paren _ _ _ => False
  | _, factor f => f.EndsInNumber
  | _, mul _ _ _ _ right => right.EndsInNumber
  | _, term t => t.EndsInNumber
  | _, add _ _ _ _ right => right.EndsInNumber

/-- The literals are in range, names are variables, operators are those of the level, and
there are only blanks between the tokens. -/
def Valid : {k : Level} → Infix k → Prop
  | _, num sign magnitude => -2 ^ 63 ≤ sign.apply magnitude ∧ sign.apply magnitude < 2 ^ 63
  | _, var name => name.isUpper
  | _, paren before e after => before.all isspace ∧ e.Valid ∧ after.all isspace
  | _, factor f => f.Valid
  | _, mul left before op after right => left.Valid ∧ before.all isspace ∧ op ∈ ['*', '/'] ∧
      after.all isspace ∧ right.Valid
  | _, term t => t.Valid
  | _, add left before op after right => left.Valid ∧ before.all isspace ∧ op ∈ ['+', '-'] ∧
      after.all isspace ∧ right.Valid

/-- A single space around operators, and one or none inside of parentheses. -/
def canonical : {k : Level} → Infix k → Infix k
  | _, num sign magnitude => num sign magnitude
  | _, var name => var name
  | _, paren before e after =>
    paren (if before = [] then [] else [' ']) e.canonical (if after = [] then [] else [' '])
  | _, factor f => factor f.canonical
  | _, mul left _ op _ right => mul left.canonical [' '] op [' '] right.canonical
  | _, term t => term t.canonical
  | _, add left _ op _ right => add left.canonical [' '] op [' '] right.canonical

theorem canonical_node {k : Level} (x : Infix k) : x.canonical.node = x.node := by
  induction x with
  | num | var => rfl
  | paren _ _ _ ih => exact ih
  | factor _ ih | term _ ih => exact ih
  | mul _ _ op _ _ ihl ihr | add _ _ op _ _ ihl ihr =>
    exact congrArg₂ (Node.binaryOp op) ihl ihr

theorem canonical_valid {k : Level} {x : Infix k} (h : x.Valid) : x.canonical.Valid := by
  induction x with
  | num | var => exact h
  | paren before e after ih =>
    refine ⟨?_, ih h.2.1, ?_⟩ <;> split_ifs <;> rfl
  | factor _ ih | term _ ih => exact ih h
  | mul _ _ op _ _ ihl ihr | add _ _ op _ _ ihl ihr =>
    exact ⟨ihl h.1, rfl, h.2.2.1, rfl, ihr h.2.2.2.2⟩

end Infix

inductive Command where
  | label (name : List Char)
  | goto (gap : Blanks) (name : List Char)
  | print (gap : Blanks) (e : Infix .expression)
  | assign (gap : Blanks) (name : Char) (before after : Blanks) (e : Infix .expression)
  | cond (gap : Blanks) (left : Infix .expression) (before : Blanks) (op : Char) (after : Blanks)
      (right : Infix .expression) (gap' : Blanks) (gap'' : Blanks) (body : Command)

def IsLabel (name : List Char) : Prop :=
  name ≠ [] ∧ name.all Char.isAlphanum ∧ name.length ≤ maxKeywordLength ∧ name ∉ keywords

namespace Command

def text : Command → List Char
  | label name => name
  | goto gap name => "GOTO".toList ++ gap ++ name
  | print gap e => "PRINT".toList ++ gap ++ e.text
  | assign gap name before after e =>
    "LET".toList ++ gap ++ name :: (before ++ '=' :: (after ++ e.text))
  | cond gap left before op after right gap' gap'' body =>
    "IF".toList ++ gap ++ left.text ++ before ++
      op :: (after ++ right.text ++ gap' ++ "THEN".toList ++ gap'' ++ body.text)

section

variable (gap before after gap' gap'' : Blanks) (name : List Char) (var op : Char)
  (e left right : Infix .expression) (body : Command)

theorem text_goto : (goto gap name).text = "GOTO".toList ++ gap ++ name := rfl

theorem text_print : (print gap e).text = "PRINT".toList ++ gap ++ e.text := rfl

theorem text_assign : (assign gap var before after e).text =
    "LET".toList ++ gap ++ var :: (before ++ '=' :: (after ++ e.text)) := rfl

theorem text_cond : (cond gap left before op after right gap' gap'' body).text =
    "IF".toList ++ gap ++ left.text ++ before ++
      op :: (after ++ right.text ++ gap' ++ "THEN".toList ++ gap'' ++ body.text) := rfl

end

def node : Command → Node
  | label name => .label (String.ofList name)
  | goto _ name => .goto (String.ofList name)
  | print _ e => .print e.node
  | assign _ name _ _ e => .letVar name e.node
  | cond _ left _ op _ right _ _ body => .cond (.binaryOp op left.node right.node) body.node

/-- There are blanks, at least one of them after a keyword and before `THEN`. -/
def Valid : Command → Prop
  | label name => IsLabel name
  | goto gap name => gap ≠ [] ∧ gap.all isspace ∧ IsLabel name
  | print gap e => gap ≠ [] ∧ gap.all isspace ∧ e.Valid
  | assign gap name before after e => (gap ≠ [] ∧ gap.all isspace) ∧ name.isUpper ∧
      before.all isspace ∧ after.all isspace ∧ e.Valid
  | cond gap left before op after right gap' gap'' body => (gap ≠ [] ∧ gap.all isspace) ∧
      left.Valid ∧ before.all isspace ∧ op ∈ ['<', '=', '>'] ∧ after.all isspace ∧ right.Valid ∧
      (gap' ≠ [] ∧ gap'.all isspace) ∧ (gap'' ≠ [] ∧ gap''.all isspace) ∧ body.Valid

def canonical : Command → Command
  | label name => label name
  | goto _ name => goto [' '] name
  | print _ e => print [' '] e.canonical
  | assign _ name _ _ e => assign [' '] name [' '] [' '] e.canonical
  | cond _ left _ op _ right _ _ body =>
    cond [' '] left.canonical [' '] op [' '] right.canonical [' '] [' '] body.canonical

/-- Just one blank after `GOTO` and after `THEN`. -/
def SingleGaps : Command → Prop
  | goto gap _ => gap.length = 1
  | cond _ _ _ _ _ _ _ gap'' body => gap''.length = 1 ∧ body.SingleGaps
  | _ => True

def EndsWell : Command → Prop
  | label _ => False
  | goto _ _ => False
  | print _ e => ¬ e.EndsInNumber
  | assign _ _ _ _ e => ¬ e.EndsInNumber
  | cond _ _ _ _ _ _ _ _ body => body.EndsWell

theorem canonical_node (c : Command) : c.canonical.node = c.node := by
  induction c with
  | label | goto => rfl
  | print _ e => exact congrArg Node.print e.canonical_node
  | assign _ name _ _ e => exact congrArg (Node.letVar name) e.canonical_node
  | cond _ left _ op _ right _ _ body ih =>
    exact congrArg₂ Node.cond (congrArg₂ (Node.binaryOp op) left.canonical_node
      right.canonical_node) ih

theorem canonical_valid {c : Command} (h : c.Valid) : c.canonical.Valid := by
  induction c with
  | label => exact h
  | goto => exact ⟨List.cons_ne_nil _ _, rfl, h.2.2⟩
  | print => exact ⟨List.cons_ne_nil _ _, rfl, Infix.canonical_valid h.2.2⟩
  | assign =>
    exact ⟨⟨List.cons_ne_nil _ _, rfl⟩, h.2.1, rfl, rfl, Infix.canonical_valid h.2.2.2.2⟩
  | cond _ _ _ _ _ _ _ _ _ ih =>
    obtain ⟨-, hl, -, hop, -, hr, -, -, hbody⟩ := h
    exact ⟨⟨List.cons_ne_nil _ _, rfl⟩, Infix.canonical_valid hl, rfl, hop, rfl,
      Infix.canonical_valid hr, ⟨List.cons_ne_nil _ _, rfl⟩, ⟨List.cons_ne_nil _ _, rfl⟩, ih hbody⟩

theorem canonical_singleGaps (c : Command) : c.canonical.SingleGaps := by
  induction c with
  | label | print | assign => trivial
  | goto => rfl
  | cond _ _ _ _ _ _ _ _ _ ih => exact ⟨rfl, ih⟩

end Command

inductive SourceLine where
  | empty
  | comment (body : List Char)
  | command (c : Command)

namespace SourceLine

/-- The line without its newline. -/
def text : SourceLine → List Char
  | empty => []
  | comment body => '#' :: body
  | command c => c.text

def nodes : SourceLine → List Node
  | command c => [c.node]
  | _ => []

/-- The first word of a comment fits the buffer of the parser. -/
def Valid : SourceLine → Prop
  | empty => True
  | comment body => '\n' ∉ body ∧
      (body.takeWhile fun c => !isspace c && !isOperator c).length < maxKeywordLength
  | command c => c.Valid

def canonical : SourceLine → SourceLine
  | command c => command c.canonical
  | line => line

def SingleGaps : SourceLine → Prop
  | command c => c.SingleGaps
  | _ => True

def EndsWell : SourceLine → Prop
  | command c => c.EndsWell
  | _ => True

theorem canonical_nodes (line : SourceLine) : line.canonical.nodes = line.nodes := by
  cases line with
  | empty | comment => rfl
  | command c => exact congrArg (fun n => [n]) c.canonical_node

theorem canonical_valid {line : SourceLine} (h : line.Valid) : line.canonical.Valid := by
  cases line with
  | empty | comment => exact h
  | command c => exact Command.canonical_valid h

theorem canonical_singleGaps (line : SourceLine) : line.canonical.SingleGaps := by
  cases line with
  | empty | comment => trivial
  | command c => exact c.canonical_singleGaps

end SourceLine

inductive Item where
  | line (l : SourceLine)
  | labelled (name : List Char) (gap : Blanks)

namespace Item

def text : Item → List Char
  | line l => l.text ++ ['\n']
  | labelled name gap => name ++ gap

def nodes : Item → List Node
  | line l => l.nodes
  | labelled name _ => [.label (String.ofList name)]

def Valid : Item → Prop
  | line l => l.Valid
  | labelled name gap => IsLabel name ∧ gap ≠ [] ∧ gap.all isspace

def canonical : Item → Item
  | line l => line l.canonical
  | labelled name _ => labelled name [' ']

def SingleGaps : Item → Prop
  | line l => l.SingleGaps
  | labelled _ _ => True

theorem canonical_nodes (i : Item) : i.canonical.nodes = i.nodes := by
  cases i with
  | line l => exact l.canonical_nodes
  | labelled => rfl

theorem canonical_valid {i : Item} (h : i.Valid) : i.canonical.Valid := by
  cases i with
  | line l => exact SourceLine.canonical_valid h
  | labelled => exact ⟨h.1, List.cons_ne_nil _ _, rfl⟩

theorem canonical_singleGaps (i : Item) : i.canonical.SingleGaps := by
  cases i with
  | line l => exact l.canonical_singleGaps
  | labelled => trivial

end Item

/-- A file, whose last line may have no newline. -/
structure SourceText where
  items : List Item
  last : Option SourceLine

namespace SourceText

def text (p : SourceText) : List Char :=
  p.items.flatMap Item.text ++ p.last.elim [] SourceLine.text

/-- The statements that are written down. -/
def nodes (p : SourceText) : List Node :=
  p.items.flatMap Item.nodes ++ p.last.elim [] SourceLine.nodes

def Valid (p : SourceText) : Prop := (∀ i ∈ p.items, i.Valid) ∧ ∀ line ∈ p.last, line.Valid

/-- Single spaces between the tokens, and a newline after each line. -/
def canonical (p : SourceText) : SourceText :=
  ⟨(p.items ++ p.last.toList.map Item.line).map Item.canonical, none⟩

/-- Just one blank after each `GOTO` and `THEN`; and where the last newline is missing, the
last line does not end with a label or a number. -/
def Spaced (p : SourceText) : Prop :=
  (∀ i ∈ p.items, i.SingleGaps) ∧ ∀ line ∈ p.last, line.SingleGaps ∧ line.EndsWell

theorem canonical_nodes (p : SourceText) : p.canonical.nodes = p.nodes := by
  have hmap : ∀ items : List Item,
      (items.map Item.canonical).flatMap Item.nodes = items.flatMap Item.nodes := fun items => by
    rw [List.flatMap_map]
    exact congrArg (fun f => items.flatMap f) (funext Item.canonical_nodes)
  rw [nodes, nodes, canonical, hmap, List.flatMap_append]
  cases p.last with
  | none =>
    rw [Option.toList_none, List.map_nil, List.flatMap_nil, List.append_nil]
  | some line =>
    change p.items.flatMap Item.nodes ++ [Item.line line].flatMap Item.nodes ++ [] = _
    rw [List.append_nil, List.flatMap_cons, List.flatMap_nil, List.append_nil]
    rfl

theorem canonical_valid {p : SourceText} (h : p.Valid) : p.canonical.Valid := by
  refine ⟨fun i hi => ?_, fun line hline => by cases hline⟩
  obtain ⟨j, hj, rfl⟩ := List.mem_map.mp hi
  refine Item.canonical_valid ?_
  rcases List.mem_append.mp hj with hj | hj
  · exact h.1 j hj
  · obtain ⟨line, hline, rfl⟩ := List.mem_map.mp hj
    exact h.2 line (Option.mem_toList.mp hline)

theorem canonical_spaced (p : SourceText) : p.canonical.Spaced := by
  refine ⟨fun i hi => ?_, fun line hline => by cases hline⟩
  obtain ⟨j, -, rfl⟩ := List.mem_map.mp hi
  exact j.canonical_singleGaps

end SourceText

end CS24.TeenyBasic
