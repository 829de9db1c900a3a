import FuzzLang.Proofs.Outline.Split
import FuzzLang.Proofs.Target.Rows
import Mathlib.Data.List.Forall2

/-!
# Written programs can be read

The lines of an outline are its rows (`spells_rows`). Lines indented with spaces can be read from
their text (`texts_eq_of_render_eq`), rows from their lines, and an outline from its rows, but for
the places it keeps (`Outline.unplaced_eq_of_rows_eq`): headers and braces alone show where
functions and loops begin and end, so the depth of lines is not needed.
-/

namespace FuzzLang

open Target

/-! ## Outlines without places -/

def Binding.unplaced (b : Binding) : Binding := { b with location := {} }

def FunctionDef.unplaced (f : FunctionDef) : FunctionDef :=
  { f with body := f.body.map Binding.unplaced, location := {} }

mutual

def Item.unplaced : Item → Item
  | .declare b => .declare b.unplaced
  | .print value => .print value
  | .loop element collection body _ => .loop element collection (Item.bodyUnplaced body) {}

def Item.bodyUnplaced : List Item → List Item
  | [] => []
  | item :: items => item.unplaced :: Item.bodyUnplaced items

end

/-- An outline with all its places left out. -/
def Outline.unplaced (o : Outline) : Outline :=
  ⟨o.functions.map FunctionDef.unplaced, Item.bodyUnplaced o.main⟩

/-! ## Rows of outlines -/

def Binding.row (b : Binding) : Row := .statement (.declare b.name b.type b.value)

def FunctionDef.rows (f : FunctionDef) : List Row :=
  .statement (.function f.signature) ::
    (f.body.map Binding.row ++ [.statement (.result f.returns), .statement .endLoop])

def Item.rows (item : Item) : List Row := item.marks.map fun m => .statement m.node

def Item.bodyRows (items : List Item) : List Row :=
  (Item.bodyMarks items).map fun m => .statement m.node

def Outline.rows (o : Outline) : List Row :=
  o.functions.flatMap FunctionDef.rows ++ .main :: (Item.bodyRows o.main ++ [.statement .endLoop])

theorem Binding.unplaced_eq_of_row_eq {b c : Binding} (h : b.row = c.row) :
    b.unplaced = c.unplaced := by
  obtain ⟨hname, htype, hvalue⟩ := Node.declare.inj (Row.statement.inj h)
  rw [unplaced, unplaced, hname, htype, hvalue]

theorem Item.bodyRows_cons (item : Item) (items : List Item) :
    bodyRows (item :: items) = item.rows ++ bodyRows items := by
  rw [bodyRows, bodyMarks, List.map_append]
  rfl

theorem Item.rows_loop (element collection : String) (body : List Item) (location : Location) :
    rows (.loop element collection body location) =
      .statement (.loop element collection) :: (bodyRows body ++ [.statement .endLoop]) := by
  simp [rows, marks, bodyRows]

/-- An item begins with a row of its own. -/
theorem Item.exists_rows_cons (item : Item) :
    ∃ node later, item.rows = .statement node :: later ∧ node ≠ .endLoop := by
  cases item with
  | declare b => exact ⟨_, [], rfl, by simp⟩
  | print value => exact ⟨_, [], rfl, by simp⟩
  | loop element collection body location => exact ⟨_, _, rows_loop .., by simp⟩

/-- Rows that end a body: none, or a brace and what follows it. -/
def Closes (rows : List Row) : Prop := ∀ row ∈ rows.head?, row = .statement .endLoop

theorem closes_cons (rows : List Row) : Closes (.statement .endLoop :: rows) := by
  rintro row ⟨⟩
  rfl

theorem not_closes_rows (item : Item) (rows : List Row) : ¬ Closes (item.rows ++ rows) := by
  intro h
  obtain ⟨node, later, hrows, hne⟩ := item.exists_rows_cons
  rw [hrows] at h
  cases h _ rfl
  exact hne rfl

mutual

/-- An item shows where it ends. -/
theorem Item.rows_append_inj {x y : Item} {r s : List Row} (h : x.rows ++ r = y.rows ++ s) :
    x.unplaced = y.unplaced ∧ r = s := by
  cases x with
  | declare b =>
    cases y with
    | declare c =>
      obtain ⟨hrow, hrest⟩ := List.cons.inj h
      exact ⟨congrArg Item.declare (Binding.unplaced_eq_of_row_eq hrow), hrest⟩
    | print w => cases h
    | loop => rw [rows_loop] at h; cases h
  | print v =>
    cases y with
    | declare c => cases h
    | print w => cases h; exact ⟨rfl, rfl⟩
    | loop => rw [rows_loop] at h; cases h
  | loop element collection body location =>
    rw [rows_loop] at h
    cases y with
    | declare c => cases h
    | print w => cases h
    | loop element' collection' body' location' =>
      rw [rows_loop, List.cons_append, List.cons_append, List.append_assoc, List.append_assoc] at h
      obtain ⟨hrow, hrest⟩ := List.cons.inj h
      obtain ⟨rfl, rfl⟩ := Node.loop.inj (Row.statement.inj hrow)
      obtain ⟨hbody, hend⟩ := Item.bodyRows_append_inj (closes_cons r) (closes_cons s) hrest
      rw [unplaced, unplaced, hbody]
      exact ⟨rfl, (List.cons.inj hend).2⟩

/-- A body shows where it ends: a brace closes it before it closes anything around it. -/
theorem Item.bodyRows_append_inj {xs ys : List Item} {r s : List Row} (hr : Closes r)
    (hs : Closes s) (h : bodyRows xs ++ r = bodyRows ys ++ s) :
    bodyUnplaced xs = bodyUnplaced ys ∧ r = s := by
  cases xs with
  | nil =>
    cases ys with
    | nil => exact ⟨rfl, h⟩
    | cons y ys =>
      rw [bodyRows_cons, List.append_assoc] at h
      obtain rfl : r = y.rows ++ (bodyRows ys ++ s) := h
      exact absurd hr (not_closes_rows y _)
  | cons x xs =>
    rw [bodyRows_cons, List.append_assoc] at h
    cases ys with
    | nil =>
      obtain rfl : x.rows ++ (bodyRows xs ++ r) = s := h
      exact absurd hs (not_closes_rows x _)
    | cons y ys =>
      rw [bodyRows_cons, List.append_assoc] at h
      obtain ⟨hitem, hrest⟩ := Item.rows_append_inj h
      obtain ⟨hitems, hend⟩ := Item.bodyRows_append_inj hr hs hrest
      rw [bodyUnplaced, bodyUnplaced, hitem, hitems]
      exact ⟨rfl, hend⟩

end

theorem map_unplaced_of_map_row {bs cs : List Binding}
    (h : bs.map Binding.row = cs.map Binding.row) :
    bs.map Binding.unplaced = cs.map Binding.unplaced := by
  induction bs generalizing cs with
  | nil =>
    cases cs with
    | nil => rfl
    | cons c cs => cases h
  | cons b bs ih =>
    cases cs with
    | nil => cases h
    | cons c cs =>
      obtain ⟨hrow, hrest⟩ := List.cons.inj h
      rw [List.map_cons, List.map_cons, Binding.unplaced_eq_of_row_eq hrow, ih hrest]

/-- The row of a variable. -/
def Target.Row.IsBinding (row : Row) : Prop := ∃ b : Binding, b.row = row

theorem isBinding_of_mem {bs : List Binding} : ∀ row ∈ bs.map Binding.row, row.IsBinding := by
  intro row hrow
  obtain ⟨b, _, hb⟩ := List.mem_map.1 hrow
  exact ⟨b, hb⟩

theorem not_isBinding_result (value : Expr) : ¬ Row.IsBinding (.statement (.result value)) := by
  rintro ⟨b, hb⟩
  cases hb

/-- Functions show where they end: the returned value follows the variables. -/
theorem map_unplaced_of_flatMap_rows {fs gs : List FunctionDef}
    (h : fs.flatMap FunctionDef.rows = gs.flatMap FunctionDef.rows) :
    fs.map FunctionDef.unplaced = gs.map FunctionDef.unplaced := by
  induction fs generalizing gs with
  | nil =>
    cases gs with
    | nil => rfl
    | cons g gs => cases h
  | cons f fs ih =>
    cases gs with
    | nil => cases h
    | cons g gs =>
      simp only [List.flatMap_cons, FunctionDef.rows, List.cons_append, List.append_assoc,
        List.nil_append] at h
      obtain ⟨hheader, h⟩ := List.cons.inj h
      obtain ⟨hbody, hreturn, h⟩ := run_cons_inj isBinding_of_mem isBinding_of_mem
        (not_isBinding_result _) (not_isBinding_result _) h
      have hsignature := Node.function.inj (Row.statement.inj hheader)
      have hreturns := Node.result.inj (Row.statement.inj hreturn)
      have hf : f.unplaced = g.unplaced := by
        rw [FunctionDef.unplaced, FunctionDef.unplaced, hsignature, hreturns,
          map_unplaced_of_map_row hbody]
      rw [List.map_cons, List.map_cons, hf, ih (List.cons.inj h).2]

theorem ne_main_of_mem_rows {fs : List FunctionDef} :
    ∀ row ∈ fs.flatMap FunctionDef.rows, row ≠ .main := by
  rintro row hrow rfl
  obtain ⟨f, _, hf⟩ := List.mem_flatMap.1 hrow
  simp [FunctionDef.rows, Binding.row] at hf

theorem Outline.unplaced_eq_of_rows_eq {o p : Outline} (h : o.rows = p.rows) :
    o.unplaced = p.unplaced := by
  unfold rows at h
  obtain ⟨hfunctions, _, hmain⟩ := run_cons_inj ne_main_of_mem_rows ne_main_of_mem_rows
    (by simp) (by simp) h
  obtain ⟨hbody, _⟩ := Item.bodyRows_append_inj (closes_cons []) (closes_cons []) hmain
  rw [unplaced, unplaced, map_unplaced_of_flatMap_rows hfunctions, hbody]

/-! ## Lines of outlines -/

namespace Target

/-- Lines that are the texts of rows, one by one. -/
def Spells : List Row → List Line → Prop := List.Forall₂ fun row line => row.Written line.text

theorem Spells.append {rs ss : List Row} {xs ys : List Line} (h : Spells rs xs) (k : Spells ss ys) :
    Spells (rs ++ ss) (xs ++ ys) := by
  induction h with
  | nil => exact k
  | cons hrow _ ih => exact .cons hrow ih

theorem Spells.singleton {row : Row} {line : Line} (h : row.Written line.text) :
    Spells [row] [line] := .cons h .nil

/-- What follows for each row and its line holds of all of them together. -/
theorem Spells.forall₂ {rows : List Row} {lines : List Line} {p : Row → Line → Prop}
    (h : Spells rows lines) (hp : ∀ row ∈ rows, ∀ line, row.Written line.text → p row line) :
    List.Forall₂ (fun row line => row.Written line.text ∧ p row line) rows lines := by
  induction h with
  | nil => exact .nil
  | cons hrow _ ih =>
    exact .cons ⟨hrow, hp _ List.mem_cons_self _ hrow⟩
      (ih fun row hr => hp row (List.mem_cons_of_mem _ hr))

theorem Spells.exists_row {rows : List Row} {lines : List Line} (h : Spells rows lines) :
    ∀ line ∈ lines, ∃ row ∈ rows, row.Written line.text := by
  induction h with
  | nil => simp
  | @cons row line rows lines hrow _ ih =>
    refine List.forall_mem_cons.2 ⟨⟨row, List.mem_cons_self, hrow⟩, fun l hl => ?_⟩
    obtain ⟨r, hr, hwritten⟩ := ih l hl
    exact ⟨r, List.mem_cons_of_mem row hr, hwritten⟩

theorem together_eq_ok {xs ys : Except Fault (List Line)} {lines : List Line} :
    together xs ys = .ok lines ↔ ∃ as bs, xs = .ok as ∧ ys = .ok bs ∧ lines = as ++ bs := by
  cases xs <;> cases ys <;> simp [together, eq_comm]

theorem spells_binding {depth : Nat} {b : Binding} {lines : List Line}
    (h : only (bindingLine depth b) = .ok lines) : Spells [b.row] lines := by
  rw [bindingLine_eq] at h
  cases ht : bindingText b with
  | error fault => rw [ht] at h; cases h
  | ok text =>
    rw [ht] at h
    cases h
    exact .singleton ⟨b.location, ht⟩

theorem spells_bindings {depth : Nat} {bs : List Binding} {lines : List Line}
    (h : bindingLines depth bs = .ok lines) : Spells (bs.map Binding.row) lines := by
  induction bs generalizing lines with
  | nil => cases h; exact .nil
  | cons b bs ih =>
    rw [bindingLines_cons, together_eq_ok] at h
    obtain ⟨as, cs, ha, hc, rfl⟩ := h
    exact (spells_binding ha).append (ih hc)

mutual

theorem spells_item {depth : Nat} {item : Item} {lines : List Line}
    (h : itemLines depth item = .ok lines) : Spells item.rows lines := by
  cases item with
  | declare b =>
    rw [itemLines_declare] at h
    exact spells_binding h
  | print value => cases h; exact .singleton rfl
  | loop element collection body location =>
    rw [itemLines_loop, together_eq_ok] at h
    obtain ⟨as, bs, ha, hb, rfl⟩ := h
    obtain ⟨cs, ds, hc, hd, rfl⟩ := together_eq_ok.1 hb
    cases ha
    cases hd
    rw [Item.rows_loop]
    exact .cons rfl ((spells_body hc).append (.singleton rfl))

theorem spells_body {depth : Nat} {items : List Item} {lines : List Line}
    (h : bodyLines depth items = .ok lines) : Spells (Item.bodyRows items) lines := by
  cases items with
  | nil => cases h; exact .nil
  | cons item items =>
    rw [bodyLines_cons, together_eq_ok] at h
    obtain ⟨as, bs, ha, hb, rfl⟩ := h
    rw [Item.bodyRows_cons]
    exact (spells_item ha).append (spells_body hb)

end

theorem spells_function {f : FunctionDef} {lines : List Line} (h : functionLines f = .ok lines) :
    Spells f.rows lines := by
  rw [functionLines_eq, together_eq_ok] at h
  obtain ⟨as, bs, ha, hb, rfl⟩ := h
  obtain ⟨cs, ds, hc, hd, rfl⟩ := together_eq_ok.1 ha
  cases hb
  rw [headerLine_eq] at hc
  cases ht : headerText f.signature f.location with
  | error fault => rw [ht] at hc; cases hc
  | ok text =>
    rw [ht] at hc
    cases hc
    exact .cons ⟨f.location, ht⟩ ((spells_bindings hd).append (.cons rfl (.cons rfl .nil)))

theorem spells_functions {fs : List FunctionDef} {lines : List Line}
    (h : functionsLines fs = .ok lines) : Spells (fs.flatMap FunctionDef.rows) lines := by
  induction fs generalizing lines with
  | nil => cases h; exact .nil
  | cons f fs ih =>
    rw [functionsLines_cons, together_eq_ok] at h
    obtain ⟨as, bs, ha, hb, rfl⟩ := h
    exact (spells_function ha).append (ih hb)

/-- The lines of an outline are its rows. -/
theorem spells_rows {o : Outline} {lines : List Line} (h : programLines o = .ok lines) :
    Spells o.rows lines := by
  rw [programLines_eq, together_eq_ok] at h
  obtain ⟨as, _, ha, hrest, rfl⟩ := h
  obtain ⟨_, _, hmain, hbody, rfl⟩ := together_eq_ok.1 hrest
  obtain ⟨bs, _, hb, hclose, rfl⟩ := together_eq_ok.1 hbody
  cases hmain
  cases hclose
  exact (spells_functions ha).append (.cons rfl ((spells_body hb).append (.singleton rfl)))

/-! ## Text -/

def spaces (n : Nat) : String := String.ofList (List.replicate n ' ')

/-- A text on one line that does not begin with a space. -/
def Line.Bare (l : Line) : Prop := OneLine l.text ∧ ∀ c ∈ l.text.toList.head?, c ≠ ' '

@[simp] theorem render_nil (indent : String) : render indent [] = "" := rfl

theorem toList_render_cons (n : Nat) (l : Line) (ls : List Line) :
    (render (spaces n) (l :: ls)).toList =
      (List.replicate (l.depth * n) ' ' ++ l.text.toList) ++
        '\n' :: (render (spaces n) ls).toList := by
  have hindent : (String.join (List.replicate l.depth (spaces n))).toList =
      List.replicate (l.depth * n) ' ' := by
    rw [String.toList_join, List.flatMap_replicate, spaces, String.toList_ofList,
      List.flatten_replicate_replicate]
  rw [render, List.map_cons, String.join_cons, String.toList_append, Line.render,
    String.toList_append, String.toList_append, hindent]
  simp [render]

theorem Line.Bare.not_mem {l : Line} (h : l.Bare) (n : Nat) :
    ∀ c ∈ List.replicate (l.depth * n) ' ' ++ l.text.toList, c ≠ '\n' := by
  rintro c hc rfl
  rcases List.mem_append.1 hc with hc | hc
  · cases List.eq_of_mem_replicate hc
  · exact h.1 hc

/-- Lines indented by spaces are read from their text but for their depth. -/
theorem texts_eq_of_render_eq {n : Nat} {xs ys : List Line} (hx : ∀ l ∈ xs, l.Bare)
    (hy : ∀ l ∈ ys, l.Bare) (h : render (spaces n) xs = render (spaces n) ys) :
    xs.map (·.text) = ys.map (·.text) := by
  have hspace (k : Nat) : ∀ c ∈ List.replicate k ' ', c = ' ' := fun c => List.eq_of_mem_replicate
  induction xs generalizing ys with
  | nil =>
    cases ys with
    | nil => rfl
    | cons y ys =>
      replace h := congrArg String.toList h
      rw [toList_render_cons] at h
      simp at h
  | cons x xs ih =>
    cases ys with
    | nil =>
      replace h := congrArg String.toList h
      rw [toList_render_cons] at h
      simp at h
    | cons y ys =>
      rw [List.forall_mem_cons] at hx hy
      replace h := congrArg String.toList h
      rw [toList_render_cons, toList_render_cons] at h
      obtain ⟨hline, _, hrest⟩ :=
        run_cons_inj (hx.1.not_mem n) (hy.1.not_mem n) (by simp) (by simp) h
      obtain ⟨_, htext⟩ := run_inj (hspace _) (hspace _) hx.1.2 hy.1.2 hline
      rw [List.map_cons, List.map_cons, String.toList_inj.1 htext,
        ih hx.2 hy.2 (String.toList_inj.1 hrest)]

/-- Rows of a program whose lines have the same texts are the same. -/
theorem Spells.inj {rs ss : List Row} {xs ys : List Line} (hr : Spells rs xs) (hs : Spells ss ys)
    (pr : ∀ row ∈ rs, row.Plain) (ps : ∀ row ∈ ss, row.Plain)
    (h : xs.map (·.text) = ys.map (·.text)) : rs = ss := by
  induction hr generalizing ss ys with
  | nil =>
    cases hs with
    | nil => rfl
    | cons => cases h
  | @cons row line _ _ hrow _ ih =>
    cases hs with
    | nil => cases h
    | @cons row' line' _ _ hrow' hrest =>
      rw [List.forall_mem_cons] at pr ps
      rw [List.map_cons, List.map_cons, List.cons.injEq] at h
      obtain ⟨htext, htexts⟩ := h
      rw [← htext] at hrow'
      rw [hrow.inj hrow' pr.1 ps.1, ih hrest pr.2 ps.2 htexts]

theorem Spells.bare {rs : List Row} {xs : List Line} (h : Spells rs xs)
    (pr : ∀ row ∈ rs, row.Plain) : ∀ l ∈ xs, l.Bare := by
  induction h with
  | nil => simp
  | cons hrow _ ih =>
    rw [List.forall_mem_cons] at pr ⊢
    exact ⟨⟨hrow.oneLine pr.1, hrow.head_ne⟩, ih pr.2⟩

theorem exists_lines_of_write {indent text : String} {o : Outline}
    (h : write indent o = .ok text) :
    ∃ lines, programLines o = .ok lines ∧ text = render indent lines := by
  unfold write at h
  cases hlines : programLines o with
  | error fault =>
    rw [hlines] at h
    cases h
  | ok lines =>
    rw [hlines] at h
    exact ⟨lines, rfl, (Except.ok.inj h).symm⟩

/-- The text of a program determines its outline but for places. -/
theorem unplaced_eq_of_write_eq {n : Nat} {o p : Outline} {text : String}
    (ho : write (spaces n) o = .ok text) (hp : write (spaces n) p = .ok text)
    (po : ∀ row ∈ o.rows, row.Plain) (pp : ∀ row ∈ p.rows, row.Plain) :
    o.unplaced = p.unplaced := by
  obtain ⟨xs, hx, htext⟩ := exists_lines_of_write ho
  obtain ⟨ys, hy, htext'⟩ := exists_lines_of_write hp
  have hxs := spells_rows hx
  have hys := spells_rows hy
  have htexts := texts_eq_of_render_eq (hxs.bare po) (hys.bare pp) (htext.symm.trans htext')
  exact Outline.unplaced_eq_of_rows_eq (hxs.inj hys po pp htexts)

end Target

end FuzzLang
