import Lasso.Proofs.Machine.Conversion

/-! # Declared names

Names of variables are told apart when they are declared, so that a name stands for one variable
however many are declared later.  What reads a name as a constant knows two digits that may be
declared: variables of these names are shadowed by constants, and no others are.
-/

namespace Lasso

set_option autoImplicit false

namespace Encoding

/-- The names of an encoding tell its variables apart, and none of them is reserved. -/
structure Named (e : Encoding) : Prop where
  unique : ∀ (i j : Nat) (x y : Variable), e.vars[i]? = some x → e.vars[j]? = some y →
    x.name = y.name → i = j
  free : ∀ x ∈ e.vars, isReserved x.name = false

theorem named_empty : (∅ : Encoding).Named where
  unique i j x y hx := by simp [EmptyCollection.emptyCollection, empty] at hx
  free x hx := by simp [EmptyCollection.emptyCollection, empty] at hx

theorem Named.of_vars {e e' : Encoding} (h : e.Named) (hvars : e'.vars = e.vars) : e'.Named :=
  ⟨hvars ▸ h.unique, hvars ▸ h.free⟩

theorem name_ne_of_lookup?_none {e : Encoding} {name : String} (h : e.lookup? name = none)
    {x : Variable} (hx : x ∈ e.vars) : x.name ≠ name := by
  intro hname
  have hno := Array.find?_eq_none.1 h x hx
  simp [hname] at hno

theorem Named.push {e e' : Encoding} (h : e.Named) {x : Variable}
    (hnew : e.lookup? x.name = none) (hfree : isReserved x.name = false)
    (hvars : e'.vars = e.vars.push x) : e'.Named := by
  constructor
  · intro i j y z hy hz hname
    rw [hvars, Array.getElem?_push] at hy hz
    split at hy <;> split at hz
    · omega
    · cases hy
      exact absurd hname.symm (name_ne_of_lookup?_none hnew (Array.mem_of_getElem? hz))
    · cases hz
      exact absurd hname (name_ne_of_lookup?_none hnew (Array.mem_of_getElem? hy))
    · exact h.unique i j y z hy hz hname
  · intro y hy
    rw [hvars, Array.mem_push] at hy
    rcases hy with hy | rfl
    · exact h.free y hy
    · exact hfree

theorem Named.lookup? {e : Encoding} (h : e.Named) {x : Variable} (hx : x ∈ e.vars) :
    e.lookup? x.name = some x := by
  obtain ⟨i, hi, hxi⟩ := Array.getElem_of_mem hx
  rw [Encoding.lookup?, Array.find?_eq_some_iff_getElem]
  refine ⟨by simp, i, hi, hxi, fun j hji => ?_⟩
  have hne : ¬ e.vars[j].name = x.name := by
    intro hname
    have hj : e.vars[j]? = some e.vars[j] := Array.getElem?_eq_getElem (by omega)
    have hi' : e.vars[i]? = some x := Array.getElem?_eq_some_iff.2 ⟨hi, hxi⟩
    have := h.unique j i _ _ hj hi' hname
    omega
  simpa using hne

/-- A declaration is refused and changes nothing, or adds a variable of a new name. -/
theorem declare_cases (isInput : Bool) (name : String) (e : Encoding) :
    (∃ err, (declare isInput name e) = (.error err, e)) ∨
    ∃ x : Variable, (declare isInput name e).1 = .ok x ∧ x.name = name ∧
      e.lookup? name = none ∧ isReserved name = false ∧
      (declare isInput name e).2.vars = e.vars.push x := by
  rw [declare_eq]
  by_cases hknown : (e.lookup? name).isSome
  · exact .inl ⟨_, if_pos hknown⟩
  rw [if_neg hknown]
  by_cases hreserved : isReserved name
  · exact .inl ⟨_, if_pos hreserved⟩
  rw [if_neg hreserved]
  have hnone : e.lookup? name = none := by simpa using hknown
  have hfree : isReserved name = false := by simpa using hreserved
  cases isInput with
  | true => exact .inr ⟨_, rfl, rfl, hnone, hfree, rfl⟩
  | false => exact .inr ⟨_, rfl, rfl, hnone, hfree, rfl⟩

theorem declare_named {e : Encoding} (h : e.Named) (isInput : Bool) (name : String) :
    (declare isInput name e).2.Named := by
  rcases declare_cases isInput name e with ⟨err, herr⟩ | ⟨x, -, rfl, hnew, hfree, hvars⟩
  · rw [herr]
    exact h
  · exact h.push hnew hfree hvars

theorem declared_mem {e : Encoding} {isInput : Bool} {name : String} {x : Variable}
    (h : (declare isInput name e).1 = .ok x) :
    x.name = name ∧ x ∈ (declare isInput name e).2.vars := by
  rcases declare_cases isInput name e with ⟨err, herr⟩ | ⟨y, hy, hname, -, -, hvars⟩
  · rw [herr] at h
    cases h
  · rw [hy] at h
    cases h
    rw [hvars]
    exact ⟨hname, Array.mem_push_self⟩

/-- A variable to be declared by a name, as an input or as part of the state. -/
structure Declaration where
  isInput : Bool
  name : String

def Declaration.run (d : Declaration) : StateM Encoding (Except DeclareError Variable) :=
  declare d.isInput d.name

theorem Declaration.run_keeps (d : Declaration) {e : Encoding} (wf : e.WellFormed)
    (h : e.Named) : (d.run e).2.WellFormed ∧ (d.run e).2.Named ∧ e ≤ (d.run e).2 := by
  obtain ⟨wf', hle⟩ := declare_grows wf d.isInput d.name
  exact ⟨wf', declare_named h d.isInput d.name, hle⟩

/-- Declares variables one after another, whether or not a declaration is refused. -/
def declareAll : List Declaration → Encoding → Encoding
  | [], e => e
  | d :: ds, e => declareAll ds (d.run e).2

theorem declareAll_append (ds ds' : List Declaration) :
    ∀ e : Encoding, declareAll (ds ++ ds') e = declareAll ds' (declareAll ds e) := by
  induction ds with
  | nil => exact fun _ => rfl
  | cons d ds ih => exact fun e => ih (d.run e).2

theorem declareAll_keeps (ds : List Declaration) :
    ∀ {e : Encoding}, e.WellFormed → e.Named →
      (declareAll ds e).WellFormed ∧ (declareAll ds e).Named ∧ e ≤ declareAll ds e := by
  induction ds with
  | nil => exact fun wf h => ⟨wf, h, le_refl _⟩
  | cons d ds ih =>
    intro e wf h
    obtain ⟨wf₁, h₁, hle₁⟩ := d.run_keeps wf h
    obtain ⟨wf₂, h₂, hle₂⟩ := ih wf₁ h₁
    exact ⟨wf₂, h₂, le_trans hle₁ hle₂⟩

theorem mem_vars_of_le {e e' : Encoding} (h : e ≤ e') {x : Variable} (hx : x ∈ e.vars) :
    x ∈ e'.vars := by
  obtain ⟨i, hi, hxi⟩ := Array.getElem_of_mem hx
  exact Array.mem_of_getElem? (h.vars i x (Array.getElem?_eq_some_iff.2 ⟨hi, hxi⟩))

/-- The constant that a name which may be declared stands for. -/
def digit? (name : String) : Option Bool :=
  if name = "1" then some true else if name = "0" then some false else none

theorem elim_digit? (name : String) (current : Lit) :
    (digit? name).elim current Graph.ofBool =
      if name = "1" then Graph.truth else if name = "0" then Graph.falsity else current := by
  unfold digit?
  split
  · rfl
  · split <;> rfl

theorem digit?_inj {name name' : String} {b : Bool} (h : digit? name = some b)
    (h' : digit? name' = some b) : name = name' := by
  unfold digit? at h h'
  split at h <;> split at h' <;> simp_all

theorem Named.conditionName? {e : Encoding} (h : e.Named) {x : Variable} (hx : x ∈ e.vars) :
    e.conditionName? x.name = some ((digit? x.name).elim x.current Graph.ofBool) := by
  have hfree : isReserved x.name = false := h.free x hx
  unfold Encoding.conditionName?
  split
  · simp_all [isReserved]
  · simp_all [isReserved]
  · rename_i hname
    rw [hname]
    rfl
  · simp_all [isReserved]
  · simp_all [isReserved]
  · rename_i hname
    rw [hname]
    rfl
  · rename_i hone _ _ hzero
    rw [h.lookup? hx, Option.map_some, digit?, if_neg hone, if_neg hzero, Option.elim_none]

theorem WellFormed.origins_current {e : Encoding} (wf : e.WellFormed) {x : Variable}
    (hx : x ∈ e.vars) : x.current.negated = false ∧
      e.origins[x.current.var]? = some (.current x.index) ∧ e.vars[x.index]? = some x := by
  obtain ⟨i, hi, hxi⟩ := Array.getElem_of_mem hx
  have hxi' : e.vars[i]? = some x := Array.getElem?_eq_some_iff.2 ⟨hi, hxi⟩
  have hpos := (wf.positive i x hxi').1
  rw [wf.index i x hxi']
  exact ⟨hpos, (wf.current i x.current.var).2 ⟨x, hxi', Lit.eq_pos_of_negated hpos⟩, hxi'⟩

theorem WellFormed.current_ne_ofBool {e : Encoding} (wf : e.WellFormed) {x : Variable}
    (hx : x ∈ e.vars) (b : Bool) : x.current ≠ Graph.ofBool b := by
  intro h
  have hnode := wf.origins _ _ (wf.origins_current hx).2.1
  have hone : x.current.var = 1 := congrArg Lit.var h
  rw [hone, (wf.graph.constants 1).2 (by omega)] at hnode
  cases hnode

theorem WellFormed.current_inj {e : Encoding} (wf : e.WellFormed) {x y : Variable}
    (hx : x ∈ e.vars) (hy : y ∈ e.vars) (h : x.current = y.current) : x = y := by
  obtain ⟨-, hxo, hxi⟩ := wf.origins_current hx
  obtain ⟨-, hyo, hyi⟩ := wf.origins_current hy
  rw [h, hyo, Option.some.injEq, Origin.current.injEq] at hxo
  rw [← hxo, hyi] at hxi
  exact (Option.some.inj hxi).symm

/-- Variables of different names have different literals even where one is a constant. -/
theorem WellFormed.name_eq_of_literal {e : Encoding} (wf : e.WellFormed) {x y : Variable}
    (hx : x ∈ e.vars) (hy : y ∈ e.vars)
    (h : (digit? x.name).elim x.current Graph.ofBool =
      (digit? y.name).elim y.current Graph.ofBool) : x.name = y.name := by
  cases hdx : digit? x.name with
  | none =>
    rw [hdx] at h
    cases hdy : digit? y.name with
    | none =>
      rw [hdy] at h
      exact congrArg Variable.name (wf.current_inj hx hy h)
    | some b =>
      rw [hdy] at h
      exact absurd h (wf.current_ne_ofBool hx b)
  | some b =>
    rw [hdx] at h
    cases hdy : digit? y.name with
    | none =>
      rw [hdy] at h
      exact absurd h.symm (wf.current_ne_ofBool hy b)
    | some c =>
      rw [hdy] at h
      have hbc : b = c := by cases b <;> cases c <;> first | rfl | cases h
      exact digit?_inj hdx (hbc ▸ hdy)

variable {α : Type}

theorem Named.condition_symbol {e : Encoding} (h : e.Named) {x : Variable} (hx : x ∈ e.vars)
    (permitNext : Bool) (note : α) : (condition permitNext (.symbol note x.name)).run e =
      (.ok ((digit? x.name).elim x.current Graph.ofBool), e) := by
  rw [condition_symbol_eq, h.conditionName? hx]

/-- From its declaration on, a name stands for its variable, unless it is one of two digits that
stand for constants; and different names always stand for different literals. -/
theorem declared_name_stands_for (before after : List Declaration) (d : Declaration)
    {x : Variable} (h : (d.run (declareAll before ∅)).1 = .ok x) {e : Encoding}
    (he : e = declareAll (before ++ d :: after) ∅) :
    x.name = d.name ∧ x ∈ e.vars ∧
    (∀ (permitNext : Bool) (note : α), (condition permitNext (.symbol note x.name)).run e =
      (.ok (if x.name = "1" then Graph.truth else if x.name = "0" then Graph.falsity
        else x.current), e)) ∧
    ∀ y ∈ e.vars, y.name ≠ x.name → ∀ (permitNext : Bool) (note note' : α), ∃ l l',
      ((condition permitNext (.symbol note x.name)).run e).1 = .ok l ∧
        ((condition permitNext (.symbol note' y.name)).run e).1 = .ok l' ∧ l ≠ l' := by
  obtain ⟨wf, hnamed, -⟩ := declareAll_keeps before wellFormed_empty named_empty
  obtain ⟨hname, hdeclared⟩ := declared_mem h
  obtain ⟨wf₁, hnamed₁, -⟩ := d.run_keeps wf hnamed
  obtain ⟨wf', hnamed', hle⟩ := declareAll_keeps after wf₁ hnamed₁
  obtain rfl : e = declareAll after (d.run (declareAll before ∅)).2 :=
    he.trans (declareAll_append before (d :: after) ∅)
  have hx := mem_vars_of_le hle hdeclared
  refine ⟨hname, hx, fun p note => ?_, fun y hy hne p note note' => ?_⟩
  · rw [hnamed'.condition_symbol hx, elim_digit?]
  · refine ⟨_, _, ?_, ?_, fun hl => hne (wf'.name_eq_of_literal hx hy hl).symm⟩
    · rw [hnamed'.condition_symbol hx]
    · rw [hnamed'.condition_symbol hy]

/-- A refused declaration of the same name and later ones make no difference. -/
theorem declared_name_stands_for_again :
    let e := declareAll [⟨true, "a"⟩, ⟨false, "y"⟩, ⟨true, "y"⟩, ⟨false, "z"⟩] ∅
    ((condition false (.symbol () "y")).run e).1 = .ok (.pos 3) ∧
      ((condition false (.symbol () "z")).run e).1 ≠ .ok (.pos 3) := by
  intro e
  obtain ⟨-, -, hstands, hdistinct⟩ := declared_name_stands_for (α := Unit) [⟨true, "a"⟩]
    [⟨true, "y"⟩, ⟨false, "z"⟩] ⟨false, "y"⟩ (x := ⟨"y", 1, .pos 3, .state (.pos 4)⟩) rfl
    (e := e) rfl
  have hy : ((condition false (.symbol () "y")).run e).1 = .ok (.pos 3) :=
    congrArg Prod.fst (hstands false ())
  obtain ⟨l, l', hl, hl', hne⟩ := hdistinct ⟨"z", 2, .pos 5, .state (.pos 6)⟩
    (Array.mem_of_getElem? (i := 2) rfl) (by decide) false () ()
  refine ⟨hy, fun hz => hne ?_⟩
  exact Except.ok.inj (hl.symm.trans (hy.trans (hz.symm.trans hl')))

/-- A variable named by a digit cannot be referred to: the digit stands for a constant. -/
theorem declared_digit_shadowed : ∃ x : Variable,
    ((Declaration.mk false "1").run ∅).1 = .ok x ∧ x.name = "1" ∧
    ((condition false (.symbol () "1")).run (declareAll [⟨false, "1"⟩] ∅)).1 = .ok Graph.truth ∧
    x.current ≠ Graph.truth := by
  refine ⟨⟨"1", 0, .pos 2, .state (.pos 3)⟩, rfl, rfl, ?_, by decide⟩
  rw [condition_symbol_eq]
  rfl

end Encoding

end Lasso
