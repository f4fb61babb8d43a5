import MiniLisp.Binary64.Printer
import MiniLisp.Text.Quoted
import MiniLisp.Value.Basic

/-!
# Writing values

Values are written in three ways. The *readable* style is the language's own notation, and what
was read reads back from it. The *inspection* style shows the tree that was read: brackets and
commas around the elements of a list and a colon before every symbol. The two differ in nothing
else. The *structure* of a value names the constructor of every node; diagnostic records show
closures in it, without the scope they remember, since that scope may well bind the closure.
-/
namespace MiniLisp.Value

structure Style where
  opening : String
  separator : String
  closing : String
  mark : String

/-- The notation that reads back. -/
def readableStyle : Style := ⟨"(", " ", ")", ""⟩

/-- The notation that shows the tree. -/
def inspectionStyle : Style := ⟨"[", ", ", "]", ":"⟩

def integerText (n : Int64) : String :=
  String.ofList (Decimal.integerText n.toInt)

def floatText (x : Binary64) : String :=
  String.ofList x.render

mutual

def render (style : Style) : Value → String
  | .nil => "nil"
  | .boolean true => "true"
  | .boolean false => "false"
  | .integer n => integerText n
  | .float x => floatText x
  | .symbol name => style.mark ++ name
  | .list items => style.opening ++ renderItems style items ++ style.closing
  | .primitive p => "#<primitive " ++ p.name ++ ">"
  | .closure _ parameters _ _ => "#<closure (" ++ " ".intercalate parameters ++ ")>"

/-- Writes the elements of a list with separators between them. -/
def renderItems (style : Style) : List Value → String
  | [] => ""
  | [item] => render style item
  | item :: others => render style item ++ style.separator ++ renderItems style others

end

def readable (v : Value) : String := v.render readableStyle

def inspected (v : Value) : String := v.render inspectionStyle

def symbolStructure (name : String) : String :=
  "Symbol(" ++ Text.quote name ++ ")"

/-- The structure of a closure with the given parameters and a body of the given structure. -/
def closureStructure (parameters : List String) (body : String) : String :=
  "Closure\x7bparameters: [" ++ ", ".intercalate (parameters.map symbolStructure) ++
    "], body: " ++ body ++ "\x7d"

mutual

/-- The constructors of a value, from the outside in. -/
def structureText : Value → String
  | .nil => "Nil"
  | .boolean true => "Bool(true)"
  | .boolean false => "Bool(false)"
  | .integer n => "Integer(" ++ integerText n ++ ")"
  | .float x => "Float(" ++ floatText x ++ ")"
  | .symbol name => "Symbol(" ++ symbolStructure name ++ ")"
  | .list items => "List(List([" ++ structureTexts items ++ "]))"
  | .primitive p => "Primitive(" ++ p.description ++ ")"
  | .closure _ parameters body _ =>
    "Closure(" ++ closureStructure parameters (structureText body) ++ ")"

def structureTexts : List Value → String
  | [] => ""
  | [item] => structureText item
  | item :: others => structureText item ++ ", " ++ structureTexts others

end

end MiniLisp.Value
