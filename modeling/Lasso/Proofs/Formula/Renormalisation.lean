import Lasso.Proofs.Formula.Calls
import Lasso.Proofs.Formula.NormalForm

/-! # Normal forms of normal forms

A normal form is its own normal form.  Its negation is the normal form of the negated formula again,
except that comparisons are written as disjunctions either way: where one occurs that a negation
passes, negating twice gives a conjunction of disjunctions.  The depth of a formula stays, and
whether it is about the past.  In a table these are identities of formulas that are kept once.
-/

namespace Lasso

set_option autoImplicit false

theorem UnaryOp.rule_dual {op dual : UnaryOp} (h : op.rule = .dual dual) (negated : Bool) :
    (if negated then dual else op).rule = .dual (if negated then op else dual) := by
  cases op <;> cases h <;> cases negated <;> rfl

theorem BinaryOp.rule_dual {op dual : BinaryOp} (h : op.rule = .dual dual) (negated : Bool) :
    (if negated then dual else op).rule = .dual (if negated then op else dual) := by
  cases op <;> cases h <;> cases negated <;> rfl

theorem UnaryOp.isTemporal_dual {op dual : UnaryOp} (h : op.rule = .dual dual) (negated : Bool) :
    (if negated then dual else op).isTemporal = op.isTemporal := by
  cases op <;> cases h <;> cases negated <;> rfl

theorem UnaryOp.isPast_dual {op dual : UnaryOp} (h : op.rule = .dual dual) (negated : Bool) :
    (if negated then dual else op).isPast = op.isPast := by
  cases op <;> cases h <;> cases negated <;> rfl

theorem UnaryOp.eq_not_of_rule {op : UnaryOp} (h : op.rule = .negation) : op = .not := by
  cases op with
  | not => rfl
  | _ => cases h

theorem BinaryOp.isTemporal_dual {op dual : BinaryOp} (h : op.rule = .dual dual)
    (negated : Bool) : (if negated then dual else op).isTemporal = op.isTemporal := by
  cases op <;> cases h <;> cases negated <;> rfl

theorem BinaryOp.isPast_dual {op dual : BinaryOp} (h : op.rule = .dual dual) (negated : Bool) :
    (if negated then dual else op).isPast = op.isPast := by
  cases op <;> cases h <;> cases negated <;> rfl

theorem BinaryOp.eq_implies_of_rule {op : BinaryOp} (h : op.rule = .implication) :
    op = .implies := by
  cases op with
  | implies => rfl
  | _ => cases h

theorem BinaryOp.isTemporal_comparison {op : BinaryOp} {different : Bool}
    (h : op.rule = .comparison different) : op.isTemporal = false := by
  cases op <;> first | rfl | cases h

theorem BinaryOp.isPast_comparison {op : BinaryOp} {different : Bool}
    (h : op.rule = .comparison different) : op.isPast = false := by
  cases op <;> first | rfl | cases h

namespace Formula

/-- No comparison occurs but beneath an operator that a negation does not pass. -/
def isReversible : Formula → Bool
  | atom _ => true
  | unary op f =>
    match op.rule with
    | .kept => true
    | _ => f.isReversible
  | binary op f g =>
    match op.rule with
    | .kept => true
    | .comparison _ => false
    | _ => f.isReversible && g.isReversible

theorem isReversible_of_operators {f : Formula}
    (h : ∀ g ∈ f.preorder, g.operator ≠ .binary .xor ∧ g.operator ≠ .binary .iff) :
    f.isReversible := by
  induction f with
  | atom e => rfl
  | unary op f ih =>
    have hf := ih fun g hg => h g (List.mem_cons_of_mem _ hg)
    rw [isReversible]
    split
    · rfl
    · exact hf
  | binary op f g ihf ihg =>
    have hf := ihf fun k hk => h k (List.mem_cons_of_mem _ (List.mem_append_left _ hk))
    have hg := ihg fun k hk => h k (List.mem_cons_of_mem _ (List.mem_append_right _ hk))
    obtain ⟨hxor, hiff⟩ := h _ (mem_preorder_self _)
    rw [isReversible]
    split
    · rfl
    · rename_i different hrule
      cases op with
      | xor => exact absurd rfl hxor
      | iff => exact absurd rfl hiff
      | _ => cases hrule
    · rw [hf, hg]
      rfl

theorem normalise_negateIf (f : Formula) (negated again : Bool) :
    (f.negateIf negated).normalise again = f.normalise (negated != again) := by
  cases negated with
  | false => rw [negateIf, if_neg Bool.false_ne_true, Bool.false_bne]
  | true =>
    rw [negateIf, if_pos rfl, normalise]
    simp only [UnaryOp.rule, Bool.true_bne]

theorem normalise_and (f g : Formula) (negated : Bool) :
    (binary .and f g).normalise negated =
      binary (if negated then .or else .and) (f.normalise negated) (g.normalise negated) := rfl

theorem normalise_or (f g : Formula) (negated : Bool) :
    (binary .or f g).normalise negated =
      binary (if negated then .and else .or) (f.normalise negated) (g.normalise negated) := rfl

theorem normalise_implication {op : BinaryOp} (h : op.rule = .implication) (f g : Formula)
    (negated : Bool) : (binary op f g).normalise negated =
      binary (if negated then .and else .or) (f.normalise (!negated)) (g.normalise negated) := by
  simp only [normalise, h]

theorem normalise_comparison {op : BinaryOp} {different : Bool}
    (h : op.rule = .comparison different) (f g : Formula) (negated : Bool) :
    (binary op f g).normalise negated =
      eitherPair (f.normalise false) (g.normalise (negated != different)) (f.normalise true)
        (g.normalise (negated == different)) := by
  simp only [normalise, h]

/-- A normal form is its own. -/
theorem normalise_false_normalise (f : Formula) (negated : Bool) :
    (f.normalise negated).normalise false = f.normalise negated := by
  induction f generalizing negated with
  | atom e => rw [normalise, normalise_negateIf, Bool.bne_false, normalise]
  | unary op f ih =>
    cases hrule : op.rule with
    | negation =>
      simp only [normalise, hrule]
      exact ih (!negated)
    | dual op' =>
      simp only [normalise, hrule, UnaryOp.rule_dual hrule negated, ih]
      rfl
    | kept =>
      simp only [normalise, hrule, normalise_negateIf, Bool.bne_false, ih]
  | binary op f g ihf ihg =>
    cases hrule : op.rule with
    | dual op' =>
      simp only [normalise, hrule, BinaryOp.rule_dual hrule negated, ihf, ihg]
      rfl
    | implication =>
      rw [normalise_implication hrule]
      cases negated with
      | false => exact congrArg₂ (binary .or) (ihf true) (ihg false)
      | true => exact congrArg₂ (binary .and) (ihf false) (ihg true)
    | comparison different =>
      rw [normalise_comparison hrule, eitherPair, normalise_or, normalise_and, normalise_and, ihf,
        ihg, ihf, ihg]
      rfl
    | kept => simp only [normalise, hrule, normalise_negateIf, Bool.bne_false, ihf, ihg]

/-- Negated again, the normal form of a formula is that of its negation, and the other way round,
exactly as far as no negation passes a comparison. -/
theorem normalise_true_normalise_iff (f : Formula) (negated : Bool) :
    (f.normalise negated).normalise true = f.normalise (!negated) ↔ f.isReversible := by
  induction f generalizing negated with
  | atom e => simp [normalise, normalise_negateIf, isReversible]
  | unary op f ih =>
    cases hrule : op.rule with
    | negation => simp only [normalise, hrule, isReversible, ih]
    | dual op' =>
      simp only [normalise, hrule, UnaryOp.rule_dual hrule negated, isReversible]
      rw [← ih negated]
      cases negated <;> simp
    | kept =>
      simp [normalise, hrule, normalise_negateIf, isReversible, normalise_false_normalise]
  | binary op f g ihf ihg =>
    cases hrule : op.rule with
    | dual op' =>
      simp only [normalise, hrule, BinaryOp.rule_dual hrule negated, isReversible,
        Bool.and_eq_true]
      rw [← ihf negated, ← ihg negated]
      cases negated <;> simp
    | implication =>
      have hrev : (binary op f g).isReversible = (f.isReversible && g.isReversible) := by
        simp only [isReversible, hrule]
      rw [normalise_implication hrule, normalise_implication hrule, hrev, Bool.and_eq_true,
        ← ihf (!negated), ← ihg negated]
      cases negated with
      | false => rw [if_neg Bool.false_ne_true, normalise_or]; simp
      | true => rw [if_pos rfl, normalise_and]; simp
    | comparison different =>
      have hrev : (binary op f g).isReversible = false := by simp only [isReversible, hrule]
      rw [normalise_comparison hrule, normalise_comparison hrule, hrev, eitherPair, eitherPair,
        normalise_or]
      simp
    | kept =>
      simp [normalise, hrule, normalise_negateIf, isReversible, normalise_false_normalise]

theorem depth_negateIf (f : Formula) (negated : Bool) : (f.negateIf negated).depth = f.depth := by
  cases negated <;> rfl

theorem isPast_negateIf (f : Formula) (negated : Bool) :
    (f.negateIf negated).isPast = f.isPast := by
  cases negated <;> rfl

theorem depth_normalise (f : Formula) (negated : Bool) : (f.normalise negated).depth = f.depth := by
  induction f generalizing negated with
  | atom e => exact depth_negateIf _ negated
  | unary op f ih =>
    rw [normalise]
    split
    · rename_i hrule
      obtain rfl := UnaryOp.eq_not_of_rule hrule
      exact ih (!negated)
    · rename_i dual hrule
      rw [depth, depth, ih, UnaryOp.isTemporal_dual hrule]
    · rw [depth_negateIf, depth, depth, ih]
  | binary op f g ihf ihg =>
    cases hrule : op.rule with
    | dual dual =>
      simp only [normalise, hrule, depth, ihf, ihg, BinaryOp.isTemporal_dual hrule]
    | implication =>
      obtain rfl := BinaryOp.eq_implies_of_rule hrule
      rw [normalise_implication rfl, depth, depth, ihf, ihg]
      cases negated <;> rfl
    | comparison different =>
      have hop : op.isTemporal = false := BinaryOp.isTemporal_comparison hrule
      rw [normalise_comparison hrule]
      simp only [eitherPair, depth, ihf, ihg, hop, Nat.max_self]
      rfl
    | kept => simp only [normalise, hrule, depth_negateIf, depth, ihf, ihg]

theorem isPast_normalise (f : Formula) (negated : Bool) :
    (f.normalise negated).isPast = f.isPast := by
  induction f generalizing negated with
  | atom e => exact isPast_negateIf _ negated
  | unary op f ih =>
    rw [normalise]
    split
    · rename_i hrule
      obtain rfl := UnaryOp.eq_not_of_rule hrule
      exact ih (!negated)
    · rename_i dual hrule
      rw [isPast, isPast, ih, UnaryOp.isPast_dual hrule]
    · rw [isPast_negateIf, isPast, isPast, ih]
  | binary op f g ihf ihg =>
    cases hrule : op.rule with
    | dual dual => simp only [normalise, hrule, isPast, ihf, ihg, BinaryOp.isPast_dual hrule]
    | implication =>
      obtain rfl := BinaryOp.eq_implies_of_rule hrule
      rw [normalise_implication rfl, isPast, isPast, ihf, ihg]
      cases negated <;> rfl
    | comparison different =>
      have hop : op.isPast = false := BinaryOp.isPast_comparison hrule
      rw [normalise_comparison hrule]
      simp only [eitherPair, isPast, ihf, ihg, hop]
      simp [BinaryOp.isPast]
    | kept => simp only [normalise, hrule, isPast_negateIf, isPast, ihf, ihg]

end Formula

namespace Table

variable {t : Table} {f : Formula}

/-- A call returns a formula, which is the one in the table from then on. -/
def Returns (t : Table) (c : Call Formula) (f : Formula) : Prop :=
  (c.run t).1 = some f ∧ (c.run t).2.Has f

theorem run_normal_fst (f : Formula) (t : Table) :
    ((Call.normal f).run t).1 = some f.normal :=
  congrArg some (normal_fst f t)

theorem run_negation_fst (f : Formula) (t : Table) :
    ((Call.negation f).run t).1 = some f.negation :=
  congrArg some (negation_fst f t)

theorem returns_normal_iff (h : t.Sound) (hf : t.Has f) {g : Formula} :
    t.Returns (.normal f) g ↔ f.normal = g := by
  have hhas := (normal_makes h hf).has
  rw [normal_fst] at hhas
  rw [Returns, run_normal_fst, Option.some.injEq]
  constructor
  · exact And.left
  · rintro rfl
    exact ⟨rfl, hhas⟩

theorem returns_negation_iff (h : t.Sound) (hf : t.Has f) {g : Formula} :
    t.Returns (.negation f) g ↔ f.negation = g := by
  have hhas := (negation_makes h hf).has
  rw [negation_fst] at hhas
  rw [Returns, run_negation_fst, Option.some.injEq]
  constructor
  · exact And.left
  · rintro rfl
    exact ⟨rfl, hhas⟩

theorem returns_not (h : t.Sound) (hf : t.Has f) :
    t.Returns (.make (.unary .not) (some f) none) (.unary .not f) := by
  have hhas := (add_unary_makes h .not hf).has
  rw [add_fst] at hhas
  rw [Returns, make_run]
  exact ⟨congrArg some (add_fst _ t), hhas⟩

/-- What a table returns for the normal forms of a formula, and for the normal forms of these. -/
structure Renormalises (t : Table) (f : Formula) : Prop where
  normal : t.Returns (.normal f) f.normal
  negation : t.Returns (.negation f) f.negation
  not : t.Returns (.make (.unary .not) (some f) none) (.unary .not f)
  normal_normal : t.Has f.normal → t.Returns (.normal f.normal) f.normal
  normal_not : t.Has (.unary .not f) → t.Returns (.normal (.unary .not f)) f.negation
  normal_negation : t.Has f.negation → t.Returns (.normal f.negation) f.negation
  negation_negation : t.Has f.negation →
    (∀ g ∈ f.preorder, g.operator ≠ .binary .xor ∧ g.operator ≠ .binary .iff) →
      t.Returns (.negation f.negation) f.normal
  negation_negation_iff : t.Has f.negation →
    (t.Returns (.negation f.negation) f.normal ↔ f.isReversible)
  depth_normal : f.normal.depth = f.depth
  depth_negation : f.negation.depth = f.depth
  isPast_normal : f.normal.isPast = f.isPast
  isPast_negation : f.negation.isPast = f.isPast

/-- After any calls on a table, normal forms are the same formulas of it however they are asked
for. -/
theorem Run.renormalises {es : List Event} (h : Run es t) (hf : t.Has f) : Renormalises t f := by
  have hsound : t.Sound := ⟨_, h.records.1⟩
  have htwice : f.negation.negation = f.normal ↔ f.isReversible :=
    Formula.normalise_true_normalise_iff f true
  constructor
  case normal => exact (returns_normal_iff hsound hf).2 rfl
  case negation => exact (returns_negation_iff hsound hf).2 rfl
  case not => exact returns_not hsound hf
  case normal_normal =>
    intro hnormal
    exact (returns_normal_iff hsound hnormal).2 (Formula.normalise_false_normalise f false)
  case normal_not =>
    intro hnot
    exact (returns_normal_iff hsound hnot).2 (Formula.normalise_negateIf f true false)
  case normal_negation =>
    intro hnegation
    exact (returns_normal_iff hsound hnegation).2 (Formula.normalise_false_normalise f true)
  case negation_negation =>
    intro hnegation hoperators
    have hreversible := Formula.isReversible_of_operators hoperators
    exact (returns_negation_iff hsound hnegation).2 (htwice.2 hreversible)
  case negation_negation_iff =>
    intro hnegation
    rw [returns_negation_iff hsound hnegation, htwice]
  case depth_normal => exact Formula.depth_normalise f false
  case depth_negation => exact Formula.depth_normalise f true
  case isPast_normal => exact Formula.isPast_normalise f false
  case isPast_negation => exact Formula.isPast_normalise f true

theorem named_run_empty (name : String) :
    ((Call.named name).run ∅).1 = some (.atom (.symbol () name)) := by
  have hempty : (∅ : Table).atoms[(.symbol () name : Expr).text]? = none :=
    Std.HashMap.getElem?_empty
  change some (atom (.symbol () name) ∅).1 = _
  rw [atom, hempty]

theorem make_fst {op : Operator} {left right : Option Formula}
    (h : Formula.ofOperands? op left right = some f) (t : Table) :
    ((Call.make op left right).run t).1 = some f := by
  rw [make_run, h]
  exact congrArg some (add_fst f t)

/-- An implication of the past, whose normal forms were made. -/
theorem Run.renormalises_previous :
    let p : Formula := .atom (.symbol () "p")
    let f : Formula := .binary .implies p (.unary .previous p)
    ∃ es t, Run es t ∧
      es.map (·.call) = [.named "p", .make (.unary .previous) (some p) none,
        .make (.binary .implies) (some p) (some (.unary .previous p)),
        .make (.unary .not) (some f) none, .normal f, .negation f] ∧
      t.Has f ∧ t.Has (.unary .not f) ∧ t.Has f.normal ∧ t.Has f.negation ∧ f.isReversible ∧
      Renormalises t f := by
  intro p f
  have h₁ := Run.start.call (.named "p") (by simp [Call.operands])
  rw [named_run_empty] at h₁
  have h₂ := h₁.call (.make (.unary .previous) (some p) none)
    (by simp [Call.operands, nodes, Formula.preorder, p])
  rw [make_fst (f := .unary .previous p) rfl] at h₂
  have h₃ := h₂.call (.make (.binary .implies) (some p) (some (.unary .previous p)))
    (by simp [Call.operands, nodes, Formula.preorder, p])
  rw [make_fst (f := f) rfl] at h₃
  have h₄ := h₃.call (.make (.unary .not) (some f) none)
    (by simp [Call.operands, nodes, Formula.mem_preorder_self])
  rw [make_fst (f := .unary .not f) rfl] at h₄
  have h₅ := h₄.call (.normal f) (by simp [Call.operands, nodes, Formula.mem_preorder_self])
  rw [run_normal_fst] at h₅
  have h₆ := h₅.call (.negation f) (by simp [Call.operands, nodes, Formula.mem_preorder_self])
  rw [run_negation_fst] at h₆
  have hnodes := has_of_mem_nodes h₆.records.1.wf h₆.records.2
  have hf := hnodes f (by simp [nodes, Formula.mem_preorder_self])
  exact ⟨_, _, h₆, rfl, hf, hnodes _ (by simp [nodes, Formula.mem_preorder_self]),
    hnodes _ (by simp [nodes, Formula.mem_preorder_self]),
    hnodes _ (by simp [nodes, Formula.mem_preorder_self]), rfl, h₆.renormalises hf⟩

end Table

end Lasso
