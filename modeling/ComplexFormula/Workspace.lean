import ComplexFormula.Formula.Closeness
import ComplexFormula.Formula.Evaluation
import ComplexFormula.Formula.Path
import ComplexFormula.Formula.Text
import ComplexFormula.Formula.Variables

namespace ComplexFormula

abbrev Workspace := Std.TreeMap String Formula

inductive Edit where
  | define (f : Formula)
  | copy (source : String)
  | combine (op : BinaryOp) (left right : String)
  | transform (op : UnaryOp) (operand : String)
  | replace (path : Path) (source : String)
  | setOperator (path : Path) (op : Operator)
  | wrap (op : UnaryOp) (times : Nat)
  | chain (op : BinaryOp) (side : Formula.Side) (source : String) (times : Nat)
  | double (op : BinaryOp) (times : Nat)

inductive Query where
  | eval (name : String) (ρ : Valuation)
  | text (name : String)
  | variableNames (name : String)
  | depth (name : String)
  | close (name other : String)

inductive Request where
  | edit (target : String) (change : Edit)
  | query (question : Query)

inductive WorkspaceError where
  | unknownName (name : String)
  | noSuchNode (path : Path)

namespace WorkspaceError

def message : WorkspaceError → String
  | unknownName name => "no formula is named '" ++ name ++ "'"
  | noSuchNode _ => "the path leads to no node that can be changed so"

instance : ToString WorkspaceError where
  toString := message

end WorkspaceError

structure Summary where
  depth : Nat
  bytes : Nat
  text : Option String

def Summary.maxBytes : Nat := 200

def Formula.summary (f : Formula) : Summary :=
  let text := f.text
  let bytes := text.utf8ByteSize
  { depth := f.depth, bytes, text := if bytes ≤ Summary.maxBytes then some text else none }

inductive Answer where
  | summary (summary : Summary)
  | evaluation (evaluation : Formula.Evaluation)
  | text (text : String)
  | variableNames (names : List String)
  | depth (depth : Nat)
  | close (close : Bool)

namespace Workspace

def find (w : Workspace) (name : String) : Except WorkspaceError Formula :=
  match w[name]? with
  | some f => .ok f
  | none => .error (.unknownName name)

def edited (w : Workspace) (target : String) : Edit → Except WorkspaceError Formula
  | .define f => return f
  | .copy source => w.find source
  | .combine op left right => return .binary op (← w.find left) (← w.find right)
  | .transform op operand => return .unary op (← w.find operand)
  | .replace path source => do
    let f ← w.find target
    let replacement ← w.find source
    atNode path (f.replaceAt? path replacement)
  | .setOperator path op => do
    let f ← w.find target
    atNode path (f.setOperatorAt? path op)
  | .wrap op times => return (← w.find target).wrap op times
  | .chain op side source times => do
    let f ← w.find target
    let other ← w.find source
    return f.chain op side other times
  | .double op times => return (← w.find target).double op times
where
  atNode (path : Path) : Option Formula → Except WorkspaceError Formula
    | some f => .ok f
    | none => .error (.noSuchNode path)

def answer (w : Workspace) : Query → Except WorkspaceError Answer
  | .eval name ρ => return .evaluation ((← w.find name).eval ρ)
  | .text name => return .text (← w.find name).text
  | .variableNames name => return .variableNames (← w.find name).variableNames
  | .depth name => return .depth (← w.find name).depth
  | .close name other => return .close (decide ((← w.find name).Close (← w.find other)))

def handle (w : Workspace) : Request → Except WorkspaceError (Answer × Workspace)
  | .edit target change => do
    let f ← w.edited target change
    return (.summary f.summary, w.insert target f)
  | .query question => return (← w.answer question, w)

def run (requests : List Request) : Except WorkspaceError (List Answer) :=
  go ∅ requests
where
  go (w : Workspace) : List Request → Except WorkspaceError (List Answer)
    | [] => return []
    | request :: requests => do
      let (answer, w) ← w.handle request
      return answer :: (← go w requests)

end Workspace

end ComplexFormula
