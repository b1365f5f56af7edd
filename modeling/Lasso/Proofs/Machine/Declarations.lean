import Lasso.Proofs.Machine.Meaning
import Lasso.Proofs.Machine.Reader

/-! # Reading one declaration after another

Reading a declaration conjoins what it says to the constraint of its kind and leaves the others as
they are.  So a constraint of a model that was read says what all declarations of its kind say.
-/

namespace Lasso

set_option autoImplicit false

/-- The kinds of constraints on paths. -/
inductive Constraint where
  | init
  | invar
  | trans

namespace Constraint

def keyword : Constraint → String
  | init => "init"
  | invar => "invar"
  | trans => "trans"

def part : Constraint → Machine → Lit
  | init, m => m.init
  | invar, m => m.invar
  | trans, m => m.trans

def add : Constraint → Machine → Lit → StateM Encoding Machine
  | init => Machine.addInit
  | invar => Machine.addInvar
  | trans => Machine.addTrans

theorem keyword_inj {c d : Constraint} (h : c.keyword = d.keyword) : c = d := by
  cases c <;> cases d <;> first | rfl | simp [keyword] at h

end Constraint

theorem Machine.Over.untimed_part {m : Machine} {e : Encoding} (h : m.Over e) (c : Constraint) :
    e.Untimed (c.part m) := by
  cases c with
  | init => exact h.init.untimed
  | invar => exact h.invar.untimed
  | trans => exact h.trans

namespace SExpr

variable {α : Type}

/-- The expression of a declaration with a given keyword. -/
def declared? (keyword : String) : SExpr α → Option (SExpr α)
  | .list _ [.symbol _ name, x] => if name = keyword then some x else none
  | _ => none

def declared (keyword : String) (ts : List (SExpr α)) : List (SExpr α) :=
  ts.filterMap (declared? keyword)

theorem declared?_eq_none {keyword : String} {note : α} {items : List (SExpr α)}
    (h : headName items ≠ keyword) : declared? keyword (.list note items) = none := by
  unfold declared?
  split
  · rename_i heq
    cases heq
    exact if_neg h
  · rfl

theorem declared?_eq_some {keyword : String} {note : α} {a x : SExpr α}
    (h : headName [a, x] = keyword) (hne : keyword ≠ "") :
    declared? keyword (.list note [a, x]) = some x := by
  cases a with
  | symbol note' name => exact if_pos h
  | list note' items => exact absurd h.symm hne

theorem declared_singleton (keyword : String) (t : SExpr α) :
    declared keyword [t] = (declared? keyword t).toList := by
  rw [declared]
  cases h : declared? keyword t <;> simp [h]

theorem declared_append (keyword : String) (ts ts' : List (SExpr α)) :
    declared keyword (ts ++ ts') = declared keyword ts ++ declared keyword ts' :=
  List.filterMap_append

end SExpr

namespace Model

open Encoding SExpr

/-- Reading some declarations conjoins what they say. -/
structure Advances (ts : List Term) (r r' : Reading) : Prop where
  errors : r.errors = #[]
  vars : r'.encoding.vars = r.encoding.vars
  adds : ∀ (c : Constraint) (w : Nat → Letter) (σ : Timeline), r.encoding.Spells w σ → ∀ n,
    r'.encoding.holds (c.part r'.machine) (w n) (w (n + 1)) =
      (r.encoding.holds (c.part r.machine) (w n) (w (n + 1)) &&
        (declared c.keyword ts).all (σ.meaning n))

theorem Advances.nil {r : Reading} (h : r.errors = #[]) : Advances [] r r :=
  ⟨h, rfl, fun c w σ _ n => by simp [declared]⟩

theorem Advances.append {ts ts' : List Term} {r r' r'' : Reading} (h : Advances ts r r')
    (h' : Advances ts' r' r'') : Advances (ts ++ ts') r r'' where
  errors := h.errors
  vars := h'.vars.trans h.vars
  adds c w σ hw n := by
    rw [h'.adds c w σ (hw.of_vars_eq h.vars) n, h.adds c w σ hw n, declared_append,
      List.all_append, Bool.and_assoc]

/-- A part of the reader that leaves the constraints as they are. -/
structure Passes (r r' : Reading) : Prop where
  grows : r.encoding ≤ r'.encoding
  vars : r'.encoding.vars = r.encoding.vars
  part : ∀ c : Constraint, c.part r'.machine = c.part r.machine
  errors : r'.errors = #[] → r.errors = #[]

theorem Passes.refl (r : Reading) : Passes r r :=
  ⟨le_refl _, rfl, fun _ => rfl, id⟩

theorem Passes.trans {r r' r'' : Reading} (h : Passes r r') (h' : Passes r' r'') :
    Passes r r'' where
  grows := le_trans h.grows h'.grows
  vars := h'.vars.trans h.vars
  part c := (h'.part c).trans (h.part c)
  errors hok := h.errors (h'.errors hok)

theorem Passes.advances {r r' : Reading} (h : Passes r r') (wf : r.WellFormed)
    (hok : r'.errors = #[]) {t : Term} (ht : ∀ c : Constraint, declared? c.keyword t = none) :
    Advances [t] r r' where
  errors := h.errors hok
  vars := h.vars
  adds c w σ _ n := by
    have hkept := (wf.machine.untimed_part c).holds_of_le wf.encoding h.grows
    rw [h.part c, hkept, declared_singleton, ht c]
    simp

/-- What a part of the reader says if it reports no mistake. -/
def Says (ts : List Term) (m : Read Unit) : Prop :=
  ∀ r : Reading, r.WellFormed → (m r).2.errors = #[] → Advances ts r (m r).2

theorem says_report (ts : List Term) (span : Span) (message : String) :
    Says ts (report span message) := by
  intro r _ hok
  have hne : r.errors.push ⟨span, message⟩ ≠ #[] := by simp
  exact absurd hok hne

theorem readCondition_passes (p : Bool) (t : Term) {r : Reading} (wf : r.WellFormed) :
    Passes r (readCondition p t r).2 ∧
      ((readCondition p t r).2.errors = #[] → ∃ l, (readCondition p t r).1 = some l ∧
        ((condition p t).run r.encoding).1 = .ok l ∧
        (readCondition p t r).2.encoding = ((condition p t).run r.encoding).2) := by
  have hattempts := (condition_attempts wf.encoding p t).1
  rw [readCondition_eq]
  cases hr : (condition p t).run r.encoding with
  | mk result e =>
    rw [hr] at hattempts
    cases result with
    | error err =>
      have hne : r.errors.push ⟨err.expr.note, err.message⟩ ≠ #[] := by simp
      exact ⟨⟨hattempts.grows, hattempts.vars, fun _ => rfl, fun hok => absurd hok hne⟩,
        fun hok => absurd hok hne⟩
    | ok l =>
      exact ⟨⟨hattempts.grows, hattempts.vars, fun _ => rfl, id⟩, fun _ => ⟨l, rfl, rfl, rfl⟩⟩

/-- Adding an expression to a machine conjoins it to the constraint with a keyword, if there is
one. -/
structure Conjoins (keyword : String) (m : Machine) (l : Lit) (e : Encoding)
    (r : Machine × Encoding) : Prop where
  vars : r.2.vars = e.vars
  holds : ∀ (c : Constraint) (now next : Letter), r.2.holds (c.part r.1) now next =
    (e.holds (c.part m) now next && (keyword != c.keyword || e.holds l now next))

theorem add_conjoins (c : Constraint) {m : Machine} {l : Lit} {e : Encoding} (wf : e.WellFormed)
    (hm : m.Over e) (hl : e.Untimed l) : Conjoins c.keyword m l e (c.add m l e) := by
  have hadd : (c.add m l e).2 = (onGraph (Graph.and (c.part m) l) e).2 ∧
      c.part (c.add m l e).1 = (onGraph (Graph.and (c.part m) l) e).1 ∧
      ∀ d, d ≠ c → d.part (c.add m l e).1 = d.part m := by
    refine ⟨by cases c <;> rfl, by cases c <;> rfl, fun d hd => ?_⟩
    cases c <;> cases d <;> first | rfl | contradiction
  obtain ⟨hencoding, hpart, hother⟩ := hadd
  refine ⟨by rw [hencoding]; rfl, fun d now next => ?_⟩
  rw [hencoding]
  by_cases hd : d = c
  · subst hd
    rw [hpart, holds_and wf (hm.untimed_part d) hl, bne_self_eq_false, Bool.false_or]
  · have hgrows := (onGraph_builds Graph.and_computes wf (hm.untimed_part c) hl).grows
    have hne : (c.keyword != d.keyword) = true := by
      simpa using fun h => hd (Constraint.keyword_inj h).symm
    rw [hother d hd, (hm.untimed_part d).holds_of_le wf hgrows, hne, Bool.true_or, Bool.and_true]

theorem addFairness_conjoins {keyword : String} (hne : ∀ c : Constraint, keyword ≠ c.keyword)
    (m : Machine) (l : Lit) (e : Encoding) : Conjoins keyword m l e (m.addFairness l, e) := by
  refine ⟨rfl, fun c now next => ?_⟩
  have hpart : c.part (m.addFairness l) = c.part m := by
    cases c <;> rfl
  simp [hpart, hne c]

theorem says_readConstraint {span : Span} {keyword : String} {items : List Term} {p : Bool}
    {add : Machine → Lit → StateM Encoding Machine} (hhead : headName items = keyword)
    (hne : keyword ≠ "")
    (hadd : ∀ (m : Machine) (l : Lit) (e : Encoding), e.WellFormed → m.Over e → e.Untimed l →
      Conjoins keyword m l e (add m l e)) :
    Says [.list span items] (readConstraint span keyword items p add) := by
  unfold readConstraint
  split
  · rename_i a t
    intro r wf hok
    obtain ⟨hpass, hread⟩ := readCondition_passes p t wf
    obtain ⟨hwf, huntimed⟩ := readCondition_spec p t wf
    rw [bind_apply] at hok ⊢
    cases hresult : (readCondition p t r).1 with
    | none =>
      rw [hresult] at hok
      obtain ⟨l, hl, -⟩ := hread hok
      rw [hresult] at hl
      cases hl
    | some l =>
      rw [hresult] at hok
      obtain ⟨_, hl, hcondition, hencoding⟩ := hread hok
      obtain rfl := Option.some.inj (hresult.symm.trans hl)
      have hconj := hadd _ l _ hwf.encoding hwf.machine (huntimed l hresult).1
      refine ⟨hpass.errors hok, hconj.vars.trans hpass.vars, fun c w σ hw n => ?_⟩
      have hmeaning : (readCondition p t r).2.encoding.holds l (w n) (w (n + 1)) =
          σ.meaning n t := by
        rw [hencoding, ← conditionValue_eq_meaning wf.encoding hw t hcondition n]
        exact ((condition_attempts wf.encoding p t).1.denotes l hcondition).holds_eq _ _
      have hkept := (wf.machine.untimed_part c).holds_of_le wf.encoding hpass.grows
      have hdeclared : (declared c.keyword [SExpr.list span [a, t]]).all (σ.meaning n) =
          (keyword != c.keyword || σ.meaning n t) := by
        rw [declared_singleton]
        by_cases hc : keyword = c.keyword
        · rw [declared?_eq_some (hhead.trans hc) (hc ▸ hne), hc]
          simp
        · rw [declared?_eq_none (hhead ▸ hc)]
          simp [hc]
      rw [hdeclared, ← hmeaning, ← hkept, ← hpass.part c]
      exact hconj.holds c (w n) (w (n + 1))
  · exact says_report _ _ _

/-- A part of the reader passes from anything that has been read well. -/
def Passing {α : Type} (m : Read α) : Prop :=
  ∀ r : Reading, r.WellFormed → (m r).2.WellFormed ∧ Passes r (m r).2

theorem Passing.bind {α β : Type} {m : Read α} {f : α → Read β} (hm : Passing m)
    (hf : ∀ a, Passing (f a)) : Passing (m >>= f) := by
  intro r wf
  obtain ⟨wf₁, h₁⟩ := hm r wf
  obtain ⟨wf₂, h₂⟩ := hf (m r).1 (m r).2 wf₁
  exact ⟨wf₂, h₁.trans h₂⟩

theorem Passing.of_eq {α : Type} {m : Read α} (hm : Keeps m)
    (h : ∀ r, (m r).2.encoding = r.encoding ∧ (∀ c : Constraint, c.part (m r).2.machine =
      c.part r.machine) ∧ ((m r).2.errors = #[] → r.errors = #[])) : Passing m := by
  intro r wf
  obtain ⟨hencoding, hpart, herrors⟩ := h r
  exact ⟨hm r wf, ⟨by rw [hencoding], by rw [hencoding], hpart, herrors⟩⟩

theorem passing_get : Passing (get : Read Reading) := fun r wf => ⟨wf, Passes.refl r⟩

theorem passing_report (span : Span) (message : String) : Passing (report span message) := by
  apply Passing.of_eq (report_keeps span message)
  intro r
  have hne : r.errors.push ⟨span, message⟩ ≠ #[] := by simp
  exact ⟨rfl, fun _ => rfl, fun hok => absurd hok hne⟩

theorem passing_setMachine {f : Machine → Machine}
    (hf : ∀ (c : Constraint) (m : Machine), c.part (f m) = c.part m)
    (hover : ∀ m e, m.Over e → (f m).Over e) :
    Passing (do setMachine (f (← get).machine) : Read Unit) := by
  apply Passing.of_eq
  · intro r wf
    exact ⟨wf.encoding, hover _ _ wf.machine⟩
  · intro r
    exact ⟨rfl, fun c => hf c r.machine, id⟩

theorem passing_readSpec (span : Span) (items : List Term) : Passing (readSpec span items) := by
  apply passing_get.bind
  intro r₀
  split
  · exact passing_report _ _
  · apply Passing.bind
    · apply Passing.of_eq (onTable_keeps _)
      intro r
      exact ⟨rfl, fun _ => rfl, id⟩
    · intro result
      split
      · rename_i es _
        apply Passing.of_eq
        · intro r wf
          exact ⟨wf.encoding, wf.machine⟩
        · intro r
          refine ⟨rfl, fun _ => rfl, fun hok => ?_⟩
          have hlist := congrArg Array.toList (show r.errors ++ es = #[] from hok)
          simp only [Array.toList_appendList, List.append_eq_nil_iff] at hlist
          exact Array.toList_eq_nil_iff.1 hlist.1
      · rename_i f _
        exact passing_setMachine (f := fun m => m.addSpec _ f) (fun c m => by cases c <;> rfl)
          fun m e h => ⟨h.init, h.invar, h.trans, h.fairness⟩

theorem passing_readInvariant (span : Span) (items : List Term) :
    Passing (readInvariant span items) := by
  apply passing_get.bind
  intro r₀
  split
  · exact passing_report _ _
  · rename_i name t _
    apply Passing.bind
    · intro r wf
      exact ⟨(readCondition_spec false t wf).1, (readCondition_passes false t wf).1⟩
    · intro result
      cases result with
      | none => exact fun r wf => ⟨wf, Passes.refl r⟩
      | some l =>
        apply passing_get.bind
        intro r₁
        split
        · exact passing_setMachine (f := fun m => m.addInvariant name l)
            (fun c m => by cases c <;> rfl) fun m e h => ⟨h.init, h.invar, h.trans, h.fairness⟩
        · exact passing_report _ _

theorem says_readDeclaration (t : Term) : Says [t] (readDeclaration t) := by
  unfold readDeclaration
  split
  · intro r wf hok
    exact (Passes.refl r).advances wf hok fun c => by cases c <;> rfl
  · rename_i span items
    have hother : ∀ {m : Read Unit}, Passing m → (∀ c : Constraint, headName items ≠ c.keyword) →
        Says [.list span items] m := by
      intro m hm hhead r wf hok
      exact (hm r wf).2.advances wf hok fun c => declared?_eq_none (hhead c)
    split
    · rename_i hhead
      exact hother (fun r wf => ⟨wf, Passes.refl r⟩) (by rw [hhead]; intro c; cases c <;> decide)
    · rename_i hhead
      exact hother (fun r wf => ⟨wf, Passes.refl r⟩) (by rw [hhead]; intro c; cases c <;> decide)
    · rename_i hhead
      exact says_readConstraint hhead (by decide) fun m l e wf hm hl =>
        add_conjoins .init wf hm hl
    · rename_i hhead
      exact says_readConstraint hhead (by decide) fun m l e wf hm hl =>
        add_conjoins .invar wf hm hl
    · rename_i hhead
      exact says_readConstraint hhead (by decide) fun m l e wf hm hl =>
        add_conjoins .trans wf hm hl
    · rename_i hhead
      apply says_readConstraint hhead (by decide)
      intro m l e _ _ _
      exact addFairness_conjoins (by intro c; cases c <;> decide) m l e
    · rename_i hhead
      apply says_readConstraint hhead (by decide)
      intro m l e _ _ _
      exact addFairness_conjoins (by intro c; cases c <;> decide) m l e
    · rename_i hhead
      exact hother (passing_readSpec span items) (by rw [hhead]; intro c; cases c <;> decide)
    · rename_i hhead
      exact hother (passing_readInvariant span items) (by rw [hhead]; intro c; cases c <;> decide)
    · exact says_report _ _ _

theorem says_forM_readDeclaration (ts : List Term) : Says ts (ts.forM readDeclaration) := by
  induction ts with
  | nil =>
    intro r _ hok
    exact .nil hok
  | cons t ts ih =>
    intro r wf hok
    have hrest := ih _ (readDeclaration_keeps t r wf) hok
    exact (says_readDeclaration t r wf hrest.errors).append hrest

/-- The first pass leaves the constraints alone. -/
def Spares {α : Type} (m : Read α) : Prop := ∀ r : Reading, (m r).2.machine = r.machine

theorem Spares.bind {α β : Type} {m : Read α} {f : α → Read β} (hm : Spares m)
    (hf : ∀ a, Spares (f a)) : Spares (m >>= f) :=
  fun r => (hf (m r).1 (m r).2).trans (hm r)

theorem Spares.forM {α : Type} {f : α → Read Unit} (hf : ∀ a, Spares (f a)) (as : List α) :
    Spares (as.forM f) := by
  induction as with
  | nil => exact fun _ => rfl
  | cons a as ih => exact fun r => (ih _).trans (hf a r)

theorem declareItem_spares (isInput : Bool) (item : Term) : Spares (declareItem isInput item) := by
  cases item with
  | list span items => exact fun _ => rfl
  | symbol span name =>
    refine Spares.bind (fun _ => rfl) fun result => ?_
    cases result with
    | ok x => exact fun _ => rfl
    | error err => exact fun _ => rfl

theorem readVariables_spares (t : Term) : Spares (readVariables t) := by
  unfold readVariables
  split
  · exact fun _ => rfl
  · dsimp only
    split
    · exact fun _ => rfl
    split
    · split
      · exact fun _ => rfl
      · exact Spares.forM (declareItem_spares _) _
    · exact fun _ => rfl

/-- A constraint of a model that was read holds where all its declarations do. -/
theorem holds_part_of_read {s : Source} {table : Table} {M : Model} {ts : List Term}
    (h : (read s table).1 = .ok M) (hts : s.terms = .ok ts) (c : Constraint) {w : Nat → Letter}
    {σ : Timeline} (hw : M.encoding.Spells w σ) (n : Nat) :
    M.encoding.holds (c.part M.machine) (w n) (w (n + 1)) =
      (declared c.keyword ts).all (σ.meaning n) := by
  let r₁ := (ts.forM readVariables { table := table }).2
  have wf₁ : r₁.WellFormed := Keeps.forM readVariables_keeps ts _ (wellFormed_start table)
  have hmachine : r₁.machine = {} := Spares.forM readVariables_spares ts { table := table }
  have hterms : (readTerms ts { table := table }).2 =
      ((if r₁.errors.isEmpty then ts.forM readDeclaration else return : Read Unit) r₁).2 := rfl
  rw [read_eq hts] at h
  split at h
  swap
  · cases h
  rename_i hempty
  have hok : (readTerms ts { table := table }).2.errors = #[] := by simpa using hempty
  obtain rfl := Except.ok.inj h
  rw [hterms] at hok hw ⊢
  split at hok
  · rename_i hfirst
    rw [if_pos hfirst] at hw ⊢
    have hadvances := says_forM_readDeclaration ts r₁ wf₁ hok
    rw [hadvances.adds c w σ (hw.of_vars_eq hadvances.vars.symm) n]
    have htruth : c.part r₁.machine = Graph.truth := by
      rw [hmachine]
      cases c <;> rfl
    rw [htruth, holds, Graph.eval_truth, Bool.true_and]
  · rename_i hfirst
    exact absurd (Array.isEmpty_iff.2 hok) hfirst

end Model

end Lasso
