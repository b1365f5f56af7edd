import Lasso.Formula.Reader
import Lasso.Proofs.SExpr.Slice
import Lasso.Proofs.Formula.Table

/-! # The formula of a term

A term is a formula or not, whatever a table holds.  Among the parts of a term only those in formula
position are read as formulas: the term itself, and the operands of a part that is headed by an
operator.
-/

namespace Lasso

set_option autoImplicit false

namespace SExpr

variable {α β : Type}

mutual

/-- The formula that a tree stands for. -/
def formula? : SExpr α → Option Formula
  | .symbol _ name => some (.atom (.symbol () name))
  | .list _ items =>
    match Operator.ofName? (headName items) with
    | some op => (operands? items).bind fun fs => (Formula.apply op (headName items) fs).toOption
    | none => if items.isEmpty then none else some (.atom (.list () (mapItems (fun _ => ()) items)))

def operands? : List (SExpr α) → Option (List Formula)
  | [] => some []
  | _ :: items => formulas? items

def formulas? : List (SExpr α) → Option (List Formula)
  | [] => some []
  | e :: es => e.formula?.bind fun f => (formulas? es).map (f :: ·)

end

mutual

/-- The parts of a tree in formula position, where operands come before what they are operands
of. -/
def positions : SExpr α → List (SExpr α)
  | .symbol n name => [.symbol n name]
  | .list n items =>
    match Operator.ofName? (headName items) with
    | some _ => operandPositions items ++ [.list n items]
    | none => [.list n items]

def operandPositions : List (SExpr α) → List (SExpr α)
  | [] => []
  | _ :: items => itemPositions items

def itemPositions : List (SExpr α) → List (SExpr α)
  | [] => []
  | e :: es => e.positions ++ itemPositions es

end

def innerPositions : SExpr α → List (SExpr α)
  | .symbol _ _ => []
  | .list _ items =>
    match Operator.ofName? (headName items) with
    | some _ => operandPositions items
    | none => []

theorem positions_eq (e : SExpr α) : e.positions = e.innerPositions ++ [e] := by
  cases e with
  | symbol n name => rfl
  | list n items =>
    rw [positions, innerPositions]
    cases Operator.ofName? (headName items) <;> rfl

/-- The formulas that some trees stand for, with the notes of the trees. -/
def readings (es : List (SExpr α)) : List (Formula × α) :=
  es.filterMap fun e => e.formula?.map (·, e.note)

theorem readings_append (es es' : List (SExpr α)) :
    readings (es ++ es') = readings es ++ readings es' := List.filterMap_append

theorem mem_readings_iff {es : List (SExpr α)} {f : Formula} {n : α} :
    (f, n) ∈ readings es ↔ ∃ e ∈ es, e.formula? = some f ∧ e.note = n := by
  simp [readings, Prod.ext_iff]

end SExpr

namespace SpanMap

variable {α : Type} [DecidableEq α] [Hashable α]

/-- Gives items their spans, where an item keeps the first one. -/
def register (m : SpanMap α) (entries : List (α × Span)) : SpanMap α :=
  entries.foldl (fun m (f, span) => m.insertIfNew f span) m

theorem register_append (m : SpanMap α) (es fs : List (α × Span)) :
    m.register (es ++ fs) = (m.register es).register fs := List.foldl_append

theorem get?_insertIfNew (m : SpanMap α) (f g : α) (span : Span) :
    (m.insertIfNew f span).get? g = (m.get? g).or (if f = g then some span else none) := by
  simp only [insertIfNew, get?, Std.HashMap.getElem?_insertIfNew, beq_iff_eq]
  cases hg : m.spans[g]? with
  | none =>
    have hmem : g ∉ m.spans := by simpa using hg
    by_cases hfg : f = g
    · subst hfg
      simp [hmem]
    · simp [hfg]
  | some first =>
    have hmem : g ∈ m.spans := Std.HashMap.mem_iff_isSome_getElem?.2 (by rw [hg]; rfl)
    rw [if_neg]
    · rfl
    · rintro ⟨rfl, hnew⟩
      exact hnew hmem

theorem get?_register (m : SpanMap α) (entries : List (α × Span)) (f : α) :
    (m.register entries).get? f = (m.get? f).or (entries.lookup f) := by
  induction entries generalizing m with
  | nil => simp [register]
  | cons entry entries ih =>
    obtain ⟨g, span⟩ := entry
    have hcons : m.register ((g, span) :: entries) = (m.insertIfNew g span).register entries := rfl
    rw [hcons, ih, get?_insertIfNew, Option.or_assoc, List.lookup_cons]
    by_cases hfg : f = g
    · subst hfg
      simp
    · have hgf : g ≠ f := fun h => hfg h.symm
      simp [hgf, beq_eq_false_iff_ne.2 hfg]

end SpanMap

namespace Formula

open SExpr

theorem ruleFor_eq (items : List Term) :
    interpreter.ruleFor items = some (match Operator.ofName? (headName items) with
      | some op => .items (apply op)
      | none => .whole ofItems) := by
  rw [Interpreter.ruleFor]
  split
  · rename_i hname
    rw [hname]
    rfl
  · cases hop : Operator.ofName? (headName items) <;> simp [interpreter, hop]

theorem settle_eq (span : Span) (result : Except String Formula) (m : SpanMap Formula) :
    ∃ o, Interpreter.settle span result m =
        (o, m.register (result.toOption.toList.map (·, span))) ∧
      o.toOption = result.toOption := by
  cases result with
  | error message => exact ⟨_, rfl, rfl⟩
  | ok f => exact ⟨_, rfl, rfl⟩

theorem toOption_join {α : Type} (first : Interpreter.Outcome α)
    (rest : Interpreter.Outcome (List α)) :
    (Interpreter.join first rest).toOption =
      first.toOption.bind fun f => rest.toOption.map (f :: ·) := by
  cases first <;> cases rest <;> rfl

theorem readings_singleton (t : Term) :
    readings [t] = t.formula?.toList.map (·, t.note) := by
  cases h : t.formula? <;> simp [readings, h]

mutual

/-- A term is read as the formula it stands for, and each part in formula position as its own. -/
theorem interpret_eq (m : SpanMap Formula) : (t : Term) → ∃ o : Interpreter.Outcome Formula,
    interpreter.interpret t m = (o, m.register (readings t.positions)) ∧ o.toOption = t.formula?
  | .symbol span name => ⟨_, rfl, rfl⟩
  | .list span items => by
    rw [Interpreter.interpret, ruleFor_eq, positions]
    cases hop : Operator.ofName? (headName items) with
    | none =>
      have hformula : (ofItems items).toOption = (list span items).formula? := by
        rw [formula?, hop, ofItems]
        cases items <;> rfl
      obtain ⟨o, hrun, ho⟩ := settle_eq span (ofItems items) m
      refine ⟨o, ?_, ho.trans hformula⟩
      rw [readings_singleton, ← hformula]
      exact hrun
    | some op =>
      obtain ⟨args, hrun, hargs⟩ := interpretTail_eq m items
      have hformula : (list span items).formula? =
          args.toOption.bind fun fs => (apply op (headName items) fs).toOption := by
        rw [formula?, hop, hargs]
      simp only [readings_append, readings_singleton, SpanMap.register_append, hformula]
      simp only [bind, StateT.bind, hrun]
      cases args with
      | error es => exact ⟨_, rfl, rfl⟩
      | ok fs => exact settle_eq span (apply op (headName items) fs) _

theorem interpretTail_eq (m : SpanMap Formula) : (items : List Term) →
    ∃ o : Interpreter.Outcome (List Formula),
      interpreter.interpretTail items m = (o, m.register (readings (operandPositions items))) ∧
        o.toOption = operands? items
  | [] => ⟨_, rfl, rfl⟩
  | _ :: items => interpretItems_eq m items

theorem interpretItems_eq (m : SpanMap Formula) : (items : List Term) →
    ∃ o : Interpreter.Outcome (List Formula),
      interpreter.interpretItems items m = (o, m.register (readings (itemPositions items))) ∧
        o.toOption = formulas? items
  | [] => ⟨_, rfl, rfl⟩
  | t :: ts => by
    obtain ⟨first, hrun, hfirst⟩ := interpret_eq m t
    obtain ⟨rest, hruns, hrest⟩ := interpretItems_eq (m.register (readings t.positions)) ts
    refine ⟨Interpreter.join first rest, ?_, ?_⟩
    · have hcons : interpreter.interpretItems (t :: ts) m =
          (Interpreter.join (interpreter.interpret t m).1
            (interpreter.interpretItems ts (interpreter.interpret t m).2).1,
            (interpreter.interpretItems ts (interpreter.interpret t m).2).2) := by
        rw [Interpreter.interpretItems]
        rfl
      rw [hcons, hrun, hruns, itemPositions, readings_append, SpanMap.register_append]
    · rw [toOption_join, hfirst, hrest, formulas?]

end

theorem preorder_infix_of_mem {f g : Formula} (h : g ∈ f.preorder) :
    g.preorder <:+: f.preorder := by
  have hunary : ∀ {op k}, (unary op k).preorder <:+: f.preorder → k.preorder <:+: f.preorder :=
    fun h => (List.suffix_cons _ _).isInfix.trans h
  have hbinary : ∀ {op k l}, (binary op k l).preorder <:+: f.preorder →
      k.preorder <:+: f.preorder ∧ l.preorder <:+: f.preorder := by
    intro op k l h
    have htail := (List.suffix_cons _ _).isInfix.trans h
    exact ⟨(List.prefix_append _ _).isInfix.trans htail,
      (List.suffix_append _ _).isInfix.trans htail⟩
  exact forall_mem_preorder (p := fun k => k.preorder <:+: f.preorder) hunary hbinary
    (List.infix_refl _) g h

def Beneath (f g : Formula) : Prop := f.preorder <:+: g.preorder.tail

theorem Beneath.ne {f g : Formula} (h : f.Beneath g) : f ≠ g := by
  rintro rfl
  have hlength := h.length_le
  have hpos : 0 < f.preorder.length := by cases f <;> exact Nat.succ_pos _
  rw [List.length_tail] at hlength
  omega

theorem Beneath.mem {f g : Formula} (h : f.Beneath g) : f ∈ g.preorder :=
  List.mem_of_mem_tail (h.subset f.mem_preorder_self)

theorem Beneath.of_mem {f g k : Formula} (h : g.Beneath k) (hf : f ∈ g.preorder) : f.Beneath k :=
  (preorder_infix_of_mem hf).trans h

theorem beneath_left (op : BinaryOp) (f g : Formula) : f.Beneath (.binary op f g) :=
  (List.prefix_append _ _).isInfix

theorem beneath_right (op : BinaryOp) (f g : Formula) : g.Beneath (.binary op f g) :=
  (List.suffix_append _ _).isInfix

theorem beneath_foldl (op : BinaryOp) (rest : List Formula) (f : Formula) :
    (∀ g : Formula, g.Beneath f → g.Beneath (rest.foldl (.binary op) f)) ∧
      ∀ g ∈ rest, g.Beneath (rest.foldl (.binary op) f) := by
  induction rest generalizing f with
  | nil => simp
  | cons k rest ih =>
    obtain ⟨hfirst, hrest⟩ := ih (.binary op f k)
    constructor
    · intro g hg
      exact hfirst g ((beneath_left op f k).of_mem hg.mem)
    · intro g hg
      obtain rfl | hg := List.mem_cons.1 hg
      · exact hfirst g (beneath_right op f g)
      · exact hrest g hg

theorem beneath_of_mem_args {op : Operator} {name : String} {args : List Formula} {f : Formula}
    (h : apply op name args = .ok f) : ∀ g ∈ args, g.Beneath f := by
  have hchain : ∀ (op : BinaryOp) (f₁ f₂ : Formula) (rest : List Formula),
      ∀ g ∈ f₁ :: f₂ :: rest, g.Beneath (chain op f₁ f₂ rest) := by
    intro op f₁ f₂ rest g hg
    obtain ⟨hfirst, hrest⟩ := beneath_foldl op rest (.binary op f₁ f₂)
    simp only [List.mem_cons] at hg
    obtain rfl | rfl | hg := hg
    · exact hfirst g (beneath_left op g f₂)
    · exact hfirst g (beneath_right op f₁ g)
    · exact hrest g hg
  unfold apply at h
  split at h
  · cases h
    exact hchain _ _ _ _
  · cases h
    exact hchain _ _ _ _
  · cases h
  · cases h
  · cases h
    simp [Beneath, preorder]
  · cases h
  · cases h
    simp [beneath_left, beneath_right]
  · cases h

end Formula

namespace SExpr

open Formula

variable {α β : Type}

theorem mem_positions_self (e : SExpr α) : e ∈ e.positions := by
  cases e with
  | symbol n name => simp [positions]
  | list n items =>
    rw [positions]
    split <;> simp

theorem toOption_eq_some_iff {x : Except String Formula} {f : Formula} :
    x.toOption = some f ↔ x = .ok f := by
  cases x <;> simp [Except.toOption]

theorem exists_operands {n : α} {items : List (SExpr α)} {op : Operator} {f : Formula}
    (hop : Operator.ofName? (headName items) = some op) (h : (list n items).formula? = some f) :
    ∃ args, operands? items = some args ∧ apply op (headName items) args = .ok f := by
  rw [formula?, hop] at h
  obtain ⟨args, hargs, happly⟩ := Option.bind_eq_some_iff.1 h
  exact ⟨args, hargs, toOption_eq_some_iff.1 happly⟩

mutual

theorem exists_mem_preorder {f : Formula} : (e : SExpr α) → e.formula? = some f →
    ∀ u ∈ e.positions, ∃ g ∈ f.preorder, u.formula? = some g
  | .symbol _ _, he, u, hu => by
    obtain rfl := List.mem_singleton.1 hu
    exact ⟨f, f.mem_preorder_self, he⟩
  | .list n items, he, u, hu => by
    rw [positions] at hu
    split at hu
    · rename_i op hop
      obtain hu | hu := List.mem_append.1 hu
      · obtain ⟨g, hg, hu⟩ := exists_beneath hop he u hu
        exact ⟨g, hg.mem, hu⟩
      · obtain rfl := List.mem_singleton.1 hu
        exact ⟨f, f.mem_preorder_self, he⟩
    · obtain rfl := List.mem_singleton.1 hu
      exact ⟨f, f.mem_preorder_self, he⟩

theorem exists_beneath {f : Formula} {n : α} {op : Operator} : {items : List (SExpr α)} →
    Operator.ofName? (headName items) = some op → (list n items).formula? = some f →
    ∀ u ∈ operandPositions items, ∃ g : Formula, g.Beneath f ∧ u.formula? = some g
  | [], _, _, _, hu => nomatch hu
  | head :: items, hop, he, u, hu => by
    obtain ⟨args, hargs, happly⟩ := exists_operands hop he
    obtain ⟨k, hk, g, hg, hu⟩ := exists_mem_operand items hargs u hu
    exact ⟨g, (beneath_of_mem_args happly k hk).of_mem hg, hu⟩

theorem exists_mem_operand {args : List Formula} : (es : List (SExpr α)) →
    formulas? es = some args → ∀ u ∈ itemPositions es,
      ∃ f ∈ args, ∃ g ∈ f.preorder, u.formula? = some g
  | [], _, _, hu => nomatch hu
  | e :: es, hes, u, hu => by
    obtain ⟨f, he, hes⟩ := Option.bind_eq_some_iff.1 hes
    obtain ⟨fs, hfs, rfl⟩ := Option.map_eq_some_iff.1 hes
    obtain hu | hu := List.mem_append.1 hu
    · exact ⟨f, by simp, exists_mem_preorder e he u hu⟩
    · obtain ⟨k, hk, hrest⟩ := exists_mem_operand es hfs u hu
      exact ⟨k, by simp [hk], hrest⟩

end

theorem exists_beneath_of_mem_innerPositions {f : Formula} {u e : SExpr α} (hu : u ∈ e.innerPositions)
    (he : e.formula? = some f) : ∃ g : Formula, g.Beneath f ∧ u.formula? = some g := by
  cases e with
  | symbol n name => exact nomatch hu
  | list n items =>
    rw [innerPositions] at hu
    split at hu
    · rename_i op hop
      exact exists_beneath hop he u hu
    · exact nomatch hu

mutual

/-- A part in formula position stands where its tokens do, and they are among those of the whole. -/
theorem placed_of_mem_positions : (t : SExpr Span) → t.Placed →
    ∀ u ∈ t.positions, u.Placed ∧ u.tokens <:+: t.tokens
  | .symbol _ _, ht, u, hu => by
    obtain rfl := List.mem_singleton.1 hu
    exact ⟨ht, List.infix_refl _⟩
  | .list n items, ht, u, hu => by
    rw [positions] at hu
    split at hu
    · obtain hu | hu := List.mem_append.1 hu
      · obtain ⟨hplaced, hpart⟩ := placed_of_mem_operandPositions items ht.2 u hu
        exact ⟨hplaced, List.infix_cons (hpart.trans (List.prefix_append _ _).isInfix)⟩
      · obtain rfl := List.mem_singleton.1 hu
        exact ⟨ht, List.infix_refl _⟩
    · obtain rfl := List.mem_singleton.1 hu
      exact ⟨ht, List.infix_refl _⟩

theorem placed_of_mem_operandPositions : (ts : List (SExpr Span)) → ItemsPlaced ts →
    ∀ u ∈ operandPositions ts, u.Placed ∧ u.tokens <:+: itemTokens ts
  | [], _, _, hu => nomatch hu
  | t :: ts, hts, u, hu => by
    obtain ⟨hplaced, hpart⟩ := placed_of_mem_itemPositions ts hts.2 u hu
    exact ⟨hplaced, hpart.trans (List.suffix_append _ _).isInfix⟩

theorem placed_of_mem_itemPositions : (ts : List (SExpr Span)) → ItemsPlaced ts →
    ∀ u ∈ itemPositions ts, u.Placed ∧ u.tokens <:+: itemTokens ts
  | [], _, _, hu => nomatch hu
  | t :: ts, hts, u, hu => by
    obtain hu | hu := List.mem_append.1 hu
    · obtain ⟨hplaced, hpart⟩ := placed_of_mem_positions t hts.1 u hu
      exact ⟨hplaced, hpart.trans (List.prefix_append _ _).isInfix⟩
    · obtain ⟨hplaced, hpart⟩ := placed_of_mem_itemPositions ts hts.2 u hu
      exact ⟨hplaced, hpart.trans (List.suffix_append _ _).isInfix⟩

end

/-- A part is before another one, or beneath it. -/
def Precedes (u v : SExpr Span) : Prop := u.note.stop ≤ v.note.start ∨ u ∈ v.innerPositions

theorem Placed.stop_le_start {u v : SExpr Span} (hu : u.Placed) (hv : v.Placed)
    (h : ∀ a ∈ u.tokens, ∀ b ∈ v.tokens, a.stop ≤ b.start) : u.note.stop ≤ v.note.start := by
  obtain ⟨_, last, hu, -, hlast⟩ := hu.exists_ends
  obtain ⟨first, _, hv, hfirst, -⟩ := hv.exists_ends
  have hle := h last (List.mem_of_getLast? hlast) first (List.mem_of_head? hfirst)
  rw [hu, hv]
  exact Int.ofNat_le.2 hle

/-- Tokens from left to right, none of which reaches into the next. -/
def Ordered (ts : List Token) : Prop := ts.Pairwise fun a b => a.stop ≤ b.start

mutual

theorem pairwise_positions : (t : SExpr Span) → t.Placed → Ordered t.tokens →
    t.positions.Pairwise Precedes
  | .symbol _ _, _, _ => List.pairwise_singleton _ _
  | .list n items, ht, hts => by
    rw [positions]
    split
    · rename_i op hop
      have hitems : Ordered (itemTokens items) := (List.pairwise_append.1 hts.of_cons).1
      refine List.pairwise_append.2
        ⟨pairwise_operandPositions items ht.2 hitems, List.pairwise_singleton _ _, ?_⟩
      intro u hu v hv
      obtain rfl := List.mem_singleton.1 hv
      rw [Precedes, innerPositions, hop]
      exact .inr hu
    · exact List.pairwise_singleton _ _

theorem pairwise_operandPositions : (ts : List (SExpr Span)) → ItemsPlaced ts →
    Ordered (itemTokens ts) → (operandPositions ts).Pairwise Precedes
  | [], _, _ => .nil
  | _ :: ts, hplaced, hts =>
    pairwise_itemPositions ts hplaced.2 (List.pairwise_append.1 hts).2.1

theorem pairwise_itemPositions : (ts : List (SExpr Span)) → ItemsPlaced ts →
    Ordered (itemTokens ts) → (itemPositions ts).Pairwise Precedes
  | [], _, _ => .nil
  | t :: ts, hplaced, hts => by
    obtain ⟨hfirst, hrest, hbetween⟩ := List.pairwise_append.1 hts
    refine List.pairwise_append.2
      ⟨pairwise_positions t hplaced.1 hfirst, pairwise_itemPositions ts hplaced.2 hrest, ?_⟩
    intro u hu v hv
    obtain ⟨hu, husub⟩ := placed_of_mem_positions t hplaced.1 u hu
    obtain ⟨hv, hvsub⟩ := placed_of_mem_itemPositions ts hplaced.2 v hv
    exact .inl (hu.stop_le_start hv fun a ha b hb =>
      hbetween a (husub.subset ha) b (hvsub.subset hb))

end

theorem exists_leftmost {es : List (SExpr Span)} (hes : es.Pairwise Precedes) {f : Formula}
    {span : Span} (h : (readings es).lookup f = some span) :
    (∃ u ∈ es, u.formula? = some f ∧ u.note = span) ∧
      ∀ u ∈ es, u.formula? = some f → u.note = span ∨ span.stop ≤ u.note.start := by
  induction es with
  | nil => cases h
  | cons e es ih =>
    obtain ⟨hfirst, hrest⟩ := List.pairwise_cons.1 hes
    by_cases he : e.formula? = some f
    · have hspan : e.note = span := by simpa [readings, he] using h
      subst hspan
      refine ⟨⟨e, by simp, he, rfl⟩, ?_⟩
      intro u hu huf
      obtain rfl | hu := List.mem_cons.1 hu
      · exact .inl rfl
      · obtain hle | hinner := hfirst u hu
        · exact .inr hle
        · -- A part with the same formula is not made of this one.
          obtain ⟨g, hg, heg⟩ := exists_beneath_of_mem_innerPositions hinner huf
          rw [he, Option.some.injEq] at heg
          exact absurd heg.symm hg.ne
    · have hskip : (readings es).lookup f = some span := by
        rw [← List.singleton_append, readings_append, List.lookup_append] at h
        cases hg : e.formula? with
        | none => simpa [readings, hg] using h
        | some g =>
          have hgf : f ≠ g := by
            rintro rfl
            exact he hg
          simpa [readings, hg, List.lookup_cons, beq_eq_false_iff_ne.2 hgf] using h
      obtain ⟨⟨u, hu, huf⟩, hleft⟩ := ih hrest hskip
      refine ⟨⟨u, by simp [hu], huf⟩, ?_⟩
      intro v hv hvf
      obtain rfl | hv := List.mem_cons.1 hv
      · exact absurd hvf he
      · exact hleft v hv hvf

end SExpr

end Lasso
