import FuzzLang.Target.Write

/-!
# Lines one after the other

The lines of a program are put together from the lines of its parts, and the first part that cannot
be written spoils the whole. `together` is that way of putting together; each part of a program is
written as one.
-/

namespace FuzzLang.Target

/-- The lines of two parts, or the fault of the first that has one. -/
def together (xs ys : Except Fault (List Line)) : Except Fault (List Line) :=
  match xs, ys with
  | .error fault, _ => .error fault
  | _, .error fault => .error fault
  | .ok xs, .ok ys => .ok (xs ++ ys)

@[simp] theorem together_nil (xs : Except Fault (List Line)) : together xs (.ok []) = xs := by
  cases xs <;> simp [together]

@[simp] theorem nil_together (xs : Except Fault (List Line)) : together (.ok []) xs = xs := by
  cases xs <;> simp [together]

theorem together_assoc (xs ys zs : Except Fault (List Line)) :
    together (together xs ys) zs = together xs (together ys zs) := by
  cases xs <;> cases ys <;> cases zs <;> simp [together]

/-- A single line as the lines of a part. -/
def only (line : Except Fault Line) : Except Fault (List Line) := line.map fun l => [l]

/-! ## The texts of lines -/

def bindingText (b : Binding) : Except Fault String :=
  match writtenType b with
  | .error fault => .error fault
  | .ok type => .ok ("let " ++ b.name ++ ": " ++ type ++ " = " ++ b.value.text ++ ";")

/-- The line that opens a function. Of two types that cannot be written the input is to blame. -/
def headerText (s : Signature) (location : Location) : Except Fault String :=
  match scalarWord s.inputType location, scalarWord s.outputType location with
  | .error fault, _ => .error fault
  | .ok _, .error fault => .error fault
  | .ok input, .ok output =>
    .ok ("fn " ++ s.name ++ "(" ++ s.argument ++ ": " ++ input ++ ") -> " ++ output ++ " \x7b")

theorem bindingLine_eq (depth : Nat) (b : Binding) :
    bindingLine depth b = (bindingText b).map (Line.mk depth) := by
  rw [bindingLine, bindingText]
  cases writtenType b <;> rfl

theorem headerLine_eq (f : FunctionDef) :
    headerLine f = (headerText f.signature f.location).map (Line.mk 0) := by
  rw [headerLine, headerText]
  cases scalarWord f.signature.inputType f.location <;>
    cases scalarWord f.signature.outputType f.location <;> rfl

/-! ## The parts of a program -/

theorem bindingLines_cons (depth : Nat) (b : Binding) (bs : List Binding) :
    bindingLines depth (b :: bs) =
      together (only (bindingLine depth b)) (bindingLines depth bs) := by
  rw [bindingLines]
  cases bindingLine depth b <;> cases bindingLines depth bs <;> rfl

theorem bindingLines_append (depth : Nat) (bs cs : List Binding) :
    bindingLines depth (bs ++ cs) = together (bindingLines depth bs) (bindingLines depth cs) := by
  induction bs with
  | nil => simp [bindingLines]
  | cons b bs ih => rw [List.cons_append, bindingLines_cons, bindingLines_cons, ih, together_assoc]

theorem itemLines_declare (depth : Nat) (b : Binding) :
    itemLines depth (.declare b) = only (bindingLine depth b) := by
  rw [itemLines]
  cases bindingLine depth b <;> rfl

theorem itemLines_loop (depth : Nat) (element collection : String) (body : List Item)
    (location : Location) :
    itemLines depth (.loop element collection body location) =
      together (.ok [loopLine depth element collection])
        (together (bodyLines (depth + 1) body) (.ok [closeLine depth])) := by
  rw [itemLines]
  cases bodyLines (depth + 1) body <;> rfl

theorem bodyLines_cons (depth : Nat) (item : Item) (items : List Item) :
    bodyLines depth (item :: items) =
      together (itemLines depth item) (bodyLines depth items) := by
  rw [bodyLines]
  cases itemLines depth item <;> cases bodyLines depth items <;> rfl

theorem bodyLines_append (depth : Nat) (xs ys : List Item) :
    bodyLines depth (xs ++ ys) = together (bodyLines depth xs) (bodyLines depth ys) := by
  induction xs with
  | nil => simp [bodyLines]
  | cons x xs ih => rw [List.cons_append, bodyLines_cons, bodyLines_cons, ih, together_assoc]

theorem bodyLines_singleton (depth : Nat) (item : Item) :
    bodyLines depth [item] = itemLines depth item := by
  rw [bodyLines_cons, bodyLines, together_nil]

theorem functionLines_eq (f : FunctionDef) :
    functionLines f =
      together (together (only (headerLine f)) (bindingLines 1 f.body))
        (.ok [returnLine f.returns, closeLine 0]) := by
  rw [functionLines]
  cases headerLine f <;> cases bindingLines 1 f.body <;> rfl

theorem functionsLines_cons (f : FunctionDef) (fs : List FunctionDef) :
    functionsLines (f :: fs) = together (functionLines f) (functionsLines fs) := by
  rw [functionsLines]
  cases functionLines f <;> cases functionsLines fs <;> rfl

theorem functionsLines_append (fs gs : List FunctionDef) :
    functionsLines (fs ++ gs) = together (functionsLines fs) (functionsLines gs) := by
  induction fs with
  | nil => simp [functionsLines]
  | cons f fs ih =>
    rw [List.cons_append, functionsLines_cons, functionsLines_cons, ih, together_assoc]

theorem functionsLines_singleton (f : FunctionDef) : functionsLines [f] = functionLines f := by
  rw [functionsLines_cons, functionsLines, together_nil]

theorem programLines_eq (o : Outline) :
    programLines o =
      together (functionsLines o.functions)
        (together (.ok [mainLine]) (together (bodyLines 1 o.main) (.ok [closeLine 0]))) := by
  rw [programLines]
  cases functionsLines o.functions <;> cases bodyLines 1 o.main <;> simp [together]

end FuzzLang.Target
