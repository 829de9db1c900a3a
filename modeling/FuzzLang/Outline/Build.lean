import FuzzLang.Outline.Basic

/-!
# From statements to an outline

The statements are taken one by one. The draft of an outline holds the functions and items so far,
the loops that are still open, innermost first, and the function whose body is being gathered.
-/

namespace FuzzLang.Outline

/-- A loop whose end has not been reached. -/
structure OpenLoop where
  element : String
  collection : String
  location : Location
  body : List Item := []
  deriving Repr

/-- A function whose returned value has not been reached. -/
structure OpenFunction where
  signature : Signature
  location : Location
  body : List Binding := []
  deriving DecidableEq, Repr

structure Draft where
  functions : List FunctionDef := []
  main : List Item := []
  loops : List OpenLoop := []
  function? : Option OpenFunction := none
  deriving Repr

namespace Draft

/-- Put an item at the end of the innermost open loop, or of the main body. -/
def push (d : Draft) (item : Item) : Draft :=
  match d.loops with
  | inner :: outer => { d with loops := { inner with body := inner.body ++ [item] } :: outer }
  | [] => { d with main := d.main ++ [item] }

/-- Whether a function may not take a name: `main` is taken from the start. -/
def taken (d : Draft) (name : String) : Bool :=
  name == "main" || d.functions.any (·.signature.name == name)

/-- End the open function with the value it returns. -/
def closeFunction (d : Draft) (f : OpenFunction) (returns : Expr) : Except Fault Draft :=
  if d.taken f.signature.name then .error (.duplicateFunction f.signature.name f.location)
  else .ok { d with
    functions := d.functions ++ [⟨f.signature, f.body, returns, f.location⟩], function? := none }

/-- Take a statement while a function is open. -/
def extendFunction (d : Draft) (f : OpenFunction) (e : Entry) : Except Fault Draft :=
  match e.node with
  | .declare name type value =>
    .ok { d with function? := some { f with body := f.body ++ [⟨name, type, value, e.location⟩] } }
  | .result value => d.closeFunction f value
  | node => .error (.functionBody f.signature.name node.kindName e.location)

/-- Take a statement while no function is open. -/
def extendBody (d : Draft) (e : Entry) : Except Fault Draft :=
  match e.node with
  | .declare name type value => .ok (d.push (.declare ⟨name, type, value, e.location⟩))
  | .print value => .ok (d.push (.print value))
  | .loop element collection =>
    .ok { d with loops := ⟨element, collection, e.location, []⟩ :: d.loops }
  | .endLoop =>
    match d.loops with
    | [] => .error (.unmatchedEndLoop e.location)
    | inner :: outer =>
      .ok ({ d with loops := outer }.push
        (.loop inner.element inner.collection inner.body inner.location))
  | .function signature => .ok { d with function? := some ⟨signature, e.location, []⟩ }
  | .result _ => .error (.unexpectedNode e.node.kindName e.location)

/-- Take the next statement. -/
def extend (d : Draft) (e : Entry) : Except Fault Draft :=
  match d.function? with
  | some f => d.extendFunction f e
  | none => d.extendBody e

/-- The draft after the statements before the first fault, and the fault. -/
def extendAll (d : Draft) : List Entry → Draft × Option Fault
  | [] => (d, none)
  | e :: es =>
    match d.extend e with
    | .error fault => (d, some fault)
    | .ok next => next.extendAll es

/-- The outline of a draft with nothing left open. -/
def finish (d : Draft) : Except Fault Outline :=
  match d.function?, d.loops with
  | some f, _ => .error (.missingReturn f.signature.name f.location)
  | none, inner :: _ => .error (.unclosedLoop inner.collection inner.location)
  | none, [] => .ok ⟨d.functions, d.main⟩

end Draft

/-- The outline of a list of statements. -/
def ofEntries (entries : List Entry) : Except Fault Outline :=
  match Draft.extendAll {} entries with
  | (_, some fault) => .error fault
  | (d, none) => d.finish

end FuzzLang.Outline
