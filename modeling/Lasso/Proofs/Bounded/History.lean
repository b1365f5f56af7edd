import Mathlib.Logic.Relation
import Lasso.Proofs.Bounded.Incremental
import Lasso.Proofs.Bounded.Induction
import Lasso.Proofs.Machine.Reader

/-! # Histories

An encoder is made for a machine that was read from a source or put together by hand, and then used
in any order: variables are declared, expressions are made, formulas are encoded, properties are
checked, and what is remembered is cleared.  Nothing of this breaks an encoder or changes what its
expressions mean.
-/

namespace Lasso

set_option autoImplicit false

open Encoding

/-- A machine over an encoding, read from a source or put together by hand. -/
inductive Machine.Built : Machine → Encoding → Prop
  | empty : Built {} ∅
  | read {source : Source} {table : Table} {M : Model} (h : (Model.read source table).1 = .ok M) :
      Built M.machine M.encoding
  | declare {m : Machine} {e : Encoding} (h : Built m e) (isInput : Bool) (name : String) :
      Built m (Encoding.declare isInput name e).2
  | init {m : Machine} {e : Encoding} (h : Built m e) {x : Expr} {l : Lit}
      (hl : ((condition false x).run e).1 = .ok l) :
      Built (m.addInit l ((condition false x).run e).2).1
        (m.addInit l ((condition false x).run e).2).2
  | invar {m : Machine} {e : Encoding} (h : Built m e) {x : Expr} {l : Lit}
      (hl : ((condition false x).run e).1 = .ok l) :
      Built (m.addInvar l ((condition false x).run e).2).1
        (m.addInvar l ((condition false x).run e).2).2
  | trans {m : Machine} {e : Encoding} (h : Built m e) {x : Expr} {l : Lit}
      (hl : ((condition true x).run e).1 = .ok l) :
      Built (m.addTrans l ((condition true x).run e).2).1
        (m.addTrans l ((condition true x).run e).2).2
  | fairness {m : Machine} {e : Encoding} (h : Built m e) {x : Expr} {l : Lit}
      (hl : ((condition false x).run e).1 = .ok l) :
      Built (m.addFairness l) ((condition false x).run e).2

theorem Machine.Built.wellFormed {m : Machine} {e : Encoding} (h : m.Built e) :
    e.WellFormed ∧ m.Over e := by
  induction h with
  | empty => exact ⟨wellFormed_empty, (Model.wellFormed_start {}).machine⟩
  | read h =>
    have hM := Model.wellFormed_of_read h
    exact ⟨hM.encoding, hM.machine⟩
  | declare _ isInput name ih =>
    obtain ⟨wf, hle⟩ := declare_grows ih.1 isInput name
    exact ⟨wf, ih.2.of_le ih.1 hle⟩
  | @init m e _ x l hl ih =>
    have hx := (condition_attempts ih.1 false x).1
    exact Model.addInit_keeps hx.wf (ih.2.of_le ih.1 hx.grows) ((condition_untimed ih.1 hl).2 rfl)
  | @invar m e _ x l hl ih =>
    have hx := (condition_attempts ih.1 false x).1
    exact Model.addInvar_keeps hx.wf (ih.2.of_le ih.1 hx.grows) ((condition_untimed ih.1 hl).2 rfl)
  | @trans m e _ x l hl ih =>
    have hx := (condition_attempts ih.1 true x).1
    exact Model.addTrans_keeps hx.wf (ih.2.of_le ih.1 hx.grows) (condition_untimed ih.1 hl).1
  | @fairness m e _ x l hl ih =>
    have hx := (condition_attempts ih.1 false x).1
    exact ⟨hx.wf, Model.addFairness_over (ih.2.of_le ih.1 hx.grows)
      ((condition_untimed ih.1 hl).2 rfl)⟩

namespace Encoder

/-- One use of an encoder for a machine. -/
inductive Use [Solver] (m : Machine) (s : Encoder) : Encoder → Prop
  | declare (isInput : Bool) (name : String) :
      Use m s (onEncoding (Encoding.declare isInput name) s).2
  | condition (permitNext : Bool) (x : Expr) :
      Use m s (onEncoding (Encoding.condition permitNext x).run s).2
  | input : Use m s (onGraph Graph.input s).2
  | connect {op : BinaryOp} {join : Lit → Lit → StateM Graph Lit} (hop : connective? op = some join)
      {a b : Lit} (ha : a ∈ s.encoding.graph) (hb : b ∈ s.encoding.graph) :
      Use m s (onGraph (join a b) s).2
  | variableAt (i : Nat) (time : UInt64) : Use m s (onEncoding (Encoding.variableAt i time) s).2
  | instantiate {l : Lit} (h : l ∈ s.encoding.graph) (time : UInt64) :
      Use m s (onEncoding (Encoding.instantiate l time) s).2
  | unroll (first last : UInt64) : Use m s (onEncoding (m.unroll first last) s).2
  | path (length : UInt64) : Use m s (onEncoding (m.path length) s).2
  | table {α : Type} (x : StateM Table α) : Use m s (onTable x s).2
  | straight (f : Formula) (time bound offset : Int64) : Use m s (straight f time bound offset s).2
  | looping (f : Formula) (time bound : Int64) (l : Loop) (offset : Int64) :
      Use m s (looping f time bound l offset s).2
  | loopCondition (source target : Int64) : Use m s (loopCondition source target s).2
  | fairnessConstraint (bound : Int64) (l : Loop) : Use m s (fairnessConstraint m bound l s).2
  | semantics (f : Formula) (bound : Int64) (l : Loop) (offset : Int64) (fair : Bool) :
      Use m s (semantics m f bound l offset fair s).2
  | violation (f : Formula) (bound : Int64) (l : Loop) : Use m s (violation m f bound l s).2
  | problem (f : Formula) (bound : Int64) (l : Loop) : Use m s (problem m f bound l s).2
  | check (f : Formula) (bound : Int64) (l : Loop) (exactly : Bool) :
      Use m s (check m f bound l exactly s).2
  | checkIncremental (f : Formula) (bound : Int64) (l : Loop) (exactly : Bool) :
      Use m s (checkIncremental m f bound l exactly s).2
  | checkInduction {prop : Lit} (h : prop ∈ s.encoding.graph) : Use m s (checkInduction m prop s).2
  | checkTemporalInduction {prop : Lit} (h : prop ∈ s.encoding.graph) (bound : Int64) :
      Use m s (checkTemporalInduction m prop bound s).2
  | clear : Use m s s.clear

/-- The encoders that are left behind by any number of uses. -/
abbrev Uses [Solver] (m : Machine) : Encoder → Encoder → Prop := Relation.ReflTransGen (Use m)

def fresh (e : Encoding) (t : Table) : Encoder := ⟨e, t, {}⟩

theorem wellFormed_of_entries {s : Encoder} (wf : s.encoding.WellFormed)
    (h : s.cache.entries = {}) : s.WellFormed where
  encoding := wf
  cache key l hl := by
    rw [h, Std.HashMap.getElem?_empty] at hl
    cases hl

theorem semantics_leads {m : Machine} {s : Encoder} (wf : s.WellFormed) (hm : m.Over s.encoding)
    (f : Formula) (bound : Int64) (l : Loop) (offset : Int64) (fair : Bool) :
    s.Leads (semantics m f bound l offset fair s).2 := by
  unfold semantics
  cases checkSemantics bound l offset with
  | error e => exact .refl wf
  | ok _ =>
    have hto := onTable_evolves wf (Table.normal f) (fun _ => False)
    exact hto.trans (onPaths_encodes _ bound offset fair hto.wf hm l).evolves

section

variable {m : Machine} {s s' : Encoder}

theorem Use.grows [Solver] (h : Use m s s') (wf : s.WellFormed) (hm : m.Over s.encoding) :
    s'.WellFormed ∧ s.encoding ≤ s'.encoding := by
  have of_encoding : ∀ {e : Encoding}, e.WellFormed → s.encoding ≤ e →
      ({ s with encoding := e } : Encoder).WellFormed ∧ s.encoding ≤ e := fun wfe hle =>
    ⟨wf.grow wfe hle, hle⟩
  have of_leads : ∀ {s' : Encoder}, s.Leads s' → s'.WellFormed ∧ s.encoding ≤ s'.encoding :=
    fun h => ⟨h.wf, h.grows⟩
  cases h with
  | declare isInput name =>
    obtain ⟨wfe, hle⟩ := declare_grows wf.encoding isInput name
    exact of_encoding wfe hle
  | condition p x =>
    have hx := (condition_attempts wf.encoding p x).1
    exact of_encoding hx.wf hx.grows
  | input =>
    have hinput := Graph.input_builds wf.encoding.graph
    exact of_encoding (wf.encoding.of_graph hinput.wf hinput.grows) (le_of_graph_le hinput.grows)
  | connect hop ha hb =>
    exact of_leads (onGraph_evolves (connective?_computes hop) wf ha hb _).1
  | variableAt i t => exact of_leads (onEncoding_evolves wf (variableAt_builds wf.encoding i t) _)
  | instantiate hl t =>
    have hl' := instantiate_rebuilds wf.encoding hl t
    exact of_encoding hl'.wf hl'.grows
  | unroll first last =>
    exact of_leads (onEncoding_evolves wf (Machine.unroll_builds wf.encoding hm first last) _)
  | path length =>
    exact of_leads (onEncoding_evolves wf (Machine.path_builds wf.encoding hm length) _)
  | table x => exact of_leads (onTable_evolves wf x _)
  | straight f time bound offset => exact of_leads (straight_meets f time bound offset s wf).evolves
  | looping f time bound l offset => exact of_leads (looping_meets f time bound l offset s wf).evolves
  | loopCondition source target => exact of_leads (loopCondition_encodes wf source target).evolves
  | fairnessConstraint bound l => exact of_leads (fairnessConstraint_encodes wf hm bound l).evolves
  | semantics f bound l offset fair => exact of_leads (semantics_leads wf hm f bound l offset fair)
  | violation f bound l => exact of_leads (violation_encodes f bound l wf hm).evolves
  | problem f bound l => exact of_leads (problem_encodes f bound l wf hm).evolves
  | check f bound l exactly => exact of_leads (check_spec f bound l exactly wf hm).1
  | checkIncremental f bound l exactly =>
    exact of_leads (checkIncremental_leads f bound l exactly wf hm)
  | checkInduction hprop => exact of_leads (checkInduction_leads wf hm hprop)
  | checkTemporalInduction hprop bound =>
    exact of_leads (checkTemporalInduction_spec wf hm hprop bound).1
  | clear => exact ⟨wellFormed_of_entries wf.encoding rfl, le_refl _⟩

theorem Uses.grows [Solver] (h : Uses m s s') (wf : s.WellFormed) (hm : m.Over s.encoding) :
    s'.WellFormed ∧ s.encoding ≤ s'.encoding := by
  induction h with
  | refl => exact ⟨wf, le_refl _⟩
  | tail _ huse ih =>
    obtain ⟨wf', hle⟩ := huse.grows ih.1 (hm.of_le wf.encoding ih.2)
    exact ⟨wf', le_trans ih.2 hle⟩

/-- An encoder with any history is well-formed, and its machine is over its encoding. -/
theorem Uses.wellFormed [Solver] {e : Encoding} {t : Table} (h : Uses m (fresh e t) s)
    (wf : e.WellFormed) (hm : m.Over e) : s.WellFormed ∧ m.Over s.encoding := by
  obtain ⟨wf', hle⟩ := h.grows (wellFormed_of_entries wf rfl) hm
  exact ⟨wf', hm.of_le wf hle⟩

end

end Encoder

end Lasso
