import Lasso.Proofs.Formula.Reading

/-! # Printing formulas

A formula that is read from a text is made of atomic propositions that cannot be taken for anything
else, and of operators with a name of their own.  So the text of the formula stands for it.
-/

namespace Lasso

set_option autoImplicit false

theorem Operator.ofName?_name {name : String} {op : BinaryOp}
    (h : Operator.ofName? name = some (.binary op)) :
    Operator.ofName? op.name = some (.binary op) := by
  unfold ofName? at h
  split at h <;> cases h <;> rfl

@[simp] theorem UnaryOp.ofName?_name (op : UnaryOp) :
    Operator.ofName? op.name = some (.unary op) := by
  cases op <;> rfl

theorem Operator.isPlain_of_ofName? {name : String} {op : Operator}
    (h : Operator.ofName? name = some op) : (SExpr.symbol () name).isPlain := by
  unfold ofName? at h
  split at h <;> cases h <;> decide

namespace SExpr

variable {α β : Type}

@[simp] theorem headName_mapItems (f : α → β) (items : List (SExpr α)) :
    headName (mapItems f items) = headName items := by
  cases items with
  | nil => rfl
  | cons e items => cases e <;> rfl

mutual

@[simp] theorem erase_map (f : α → β) : (e : SExpr α) → (e.map f).erase = e.erase
  | .symbol _ _ => rfl
  | .list _ items => by
    simpa only [erase, map, list.injEq, true_and] using eraseItems_mapItems f items

theorem eraseItems_mapItems (f : α → β) : (es : List (SExpr α)) →
    mapItems (fun _ => ()) (mapItems f es) = mapItems (fun _ => ()) es
  | [] => rfl
  | e :: es => by
    rw [mapItems, mapItems, mapItems, eraseItems_mapItems f es]
    exact congrArg (· :: _) (erase_map f e)

end

mutual

/-- Notes do not matter to what a tree stands for. -/
@[simp] theorem formula?_map (f : α → β) : (e : SExpr α) → (e.map f).formula? = e.formula?
  | .symbol _ _ => rfl
  | .list _ items => by
    have hempty : (mapItems f items).isEmpty = items.isEmpty := by cases items <;> rfl
    simp only [map, formula?, headName_mapItems, operands?_mapItems f items, hempty,
      eraseItems_mapItems f items]

theorem operands?_mapItems (f : α → β) : (items : List (SExpr α)) →
    operands? (mapItems f items) = operands? items
  | [] => rfl
  | _ :: items => formulas?_mapItems f items

theorem formulas?_mapItems (f : α → β) : (es : List (SExpr α)) →
    formulas? (mapItems f es) = formulas? es
  | [] => rfl
  | e :: es => by simp only [mapItems, formulas?, formula?_map f e, formulas?_mapItems f es]

end

end SExpr

namespace Formula

open SExpr

/-- The tree of which the text of a formula is the text. -/
def sexpr : Formula → Expr
  | .atom e => e
  | .unary op f => .list () [.symbol () op.name, f.sexpr]
  | .binary op f g => .list () [.symbol () op.name, f.sexpr, g.sexpr]

theorem text_sexpr (f : Formula) : f.sexpr.text = f.text := by
  induction f with
  | atom e => rfl
  | unary op f ih => simp [sexpr, SExpr.text, textItems, text, ih, String.append_assoc]
  | binary op f g ihf ihg =>
    simp [sexpr, SExpr.text, textItems, text, ihf, ihg, String.append_assoc]

/-- The operators of a formula have names, and its atomic propositions stand for themselves. -/
def Readable : Formula → Prop
  | .atom e => e.isPlain ∧ e.formula? = some (.atom e)
  | .unary _ f => f.Readable
  | .binary op f g => Operator.ofName? op.name = some (.binary op) ∧ f.Readable ∧ g.Readable

theorem Readable.isPlain_sexpr {f : Formula} (h : f.Readable) : f.sexpr.isPlain := by
  induction f with
  | atom e => exact h.1
  | unary op f ih =>
    have hname := Operator.isPlain_of_ofName? op.ofName?_name
    change itemsPlain [.symbol () op.name, f.sexpr] = true
    simp only [itemsPlain, hname, ih h, Bool.and_true]
  | binary op f g ihf ihg =>
    have hname := Operator.isPlain_of_ofName? h.1
    change itemsPlain [.symbol () op.name, f.sexpr, g.sexpr] = true
    simp only [itemsPlain, hname, ihf h.2.1, ihg h.2.2, Bool.and_true]

theorem Readable.formula?_sexpr {f : Formula} (h : f.Readable) : f.sexpr.formula? = some f := by
  induction f with
  | atom e => exact h.2
  | unary op f ih =>
    simp [sexpr, formula?, headName, operands?, formulas?, ih h, apply, Except.toOption]
  | binary op f g ihf ihg =>
    have happly : ∀ name, apply (.binary op) name [f, g] = .ok (.binary op f g) := by
      intro name
      cases op <;> rfl
    simp [sexpr, formula?, headName, operands?, formulas?, h.1, ihf h.2.1, ihg h.2.2, happly,
      Except.toOption]

theorem Readable.of_mem_preorder {f g : Formula} (h : f.Readable) (hg : g ∈ f.preorder) :
    g.Readable :=
  forall_mem_preorder (fun hunary => hunary) (fun hbinary => hbinary.2) h g hg

theorem Readable.eq_of_text_eq {f g : Formula} (hf : f.Readable) (hg : g.Readable)
    (h : f.text = g.text) : f = g := by
  rw [← text_sexpr, ← text_sexpr] at h
  have hsexpr := SExpr.eq_of_text_eq hf.isPlain_sexpr hg.isPlain_sexpr h
  have hformula := hf.formula?_sexpr
  rw [hsexpr, hg.formula?_sexpr, Option.some.injEq] at hformula
  exact hformula.symm

theorem readable_foldl {op : BinaryOp} (hop : Operator.ofName? op.name = some (.binary op))
    {rest : List Formula} {f : Formula} (hf : f.Readable) (hrest : ∀ g ∈ rest, g.Readable) :
    (rest.foldl (.binary op) f).Readable := by
  induction rest generalizing f with
  | nil => exact hf
  | cons g rest ih =>
    rw [List.forall_mem_cons] at hrest
    exact ih ⟨hop, hf, hrest.1⟩ hrest.2

theorem readable_of_apply {op : Operator} {name : String} {args : List Formula} {f : Formula}
    (hop : Operator.ofName? name = some op) (hargs : ∀ g ∈ args, g.Readable)
    (h : apply op name args = .ok f) : f.Readable := by
  unfold apply at h
  split at h
  · rename_i f g rest
    cases h
    simp only [List.forall_mem_cons] at hargs
    exact readable_foldl rfl ⟨rfl, hargs.1, hargs.2.1⟩ hargs.2.2
  · rename_i f g rest
    cases h
    simp only [List.forall_mem_cons] at hargs
    exact readable_foldl rfl ⟨rfl, hargs.1, hargs.2.1⟩ hargs.2.2
  · cases h
  · cases h
  · rename_i op g
    cases h
    exact hargs g (by simp)
  · cases h
  · rename_i op g k _ _
    cases h
    exact ⟨Operator.ofName?_name hop, hargs g (by simp), hargs k (by simp)⟩
  · cases h

end Formula

namespace SExpr

open Formula

variable {α : Type}

mutual

theorem readable_of_formula? : (e : SExpr α) → e.isPlain → ∀ {f : Formula}, e.formula? = some f →
    f.Readable
  | .symbol _ name, hplain, f, h => by
    cases h
    exact ⟨hplain, rfl⟩
  | .list n items, hplain, f, h => by
    cases hop : Operator.ofName? (headName items) with
    | some op =>
      obtain ⟨args, hargs, happly⟩ := exists_operands hop h
      exact readable_of_apply hop (readable_of_operands? items hplain hargs) happly
    | none =>
      have hplain' : (SExpr.list () (mapItems (fun _ => ()) items)).isPlain := by
        rw [isPlain, itemsPlain_mapItems]
        exact hplain
      have hformula : (SExpr.list () (mapItems (fun _ => ()) items)).formula? =
          (SExpr.list n items).formula? := formula?_map (fun _ => ()) (.list n items)
      have hf : f = .atom (.list () (mapItems (fun _ => ()) items)) := by
        rw [formula?, hop] at h
        simp only [Option.ite_none_left_eq_some, Option.some.injEq] at h
        exact h.2.symm
      subst hf
      exact ⟨hplain', hformula.trans h⟩

theorem readable_of_operands? : (items : List (SExpr α)) → itemsPlain items →
    ∀ {fs : List Formula}, operands? items = some fs → ∀ f ∈ fs, f.Readable
  | [], _, fs, h, f, hf => by
    cases h
    cases hf
  | _ :: items, hplain, fs, h, f, hf => by
    rw [itemsPlain, Bool.and_eq_true] at hplain
    exact readable_of_formulas? items hplain.2 h f hf

theorem readable_of_formulas? : (es : List (SExpr α)) → itemsPlain es →
    ∀ {fs : List Formula}, formulas? es = some fs → ∀ f ∈ fs, f.Readable
  | [], _, fs, h, f, hf => by
    cases h
    cases hf
  | e :: es, hplain, fs, h, f, hf => by
    rw [itemsPlain, Bool.and_eq_true] at hplain
    obtain ⟨g, hg, hes⟩ := Option.bind_eq_some_iff.1 h
    obtain ⟨gs, hgs, rfl⟩ := Option.map_eq_some_iff.1 hes
    obtain rfl | hf := List.mem_cons.1 hf
    · exact readable_of_formula? e hplain.1 hg
    · exact readable_of_formulas? es hplain.2 hgs f hf

end

end SExpr

end Lasso
