import Lasso.Proofs.Machine.Forms
import Lasso.Proofs.Machine.Naming
import Lasso.Proofs.Machine.Reader

/-! # What holds of every model that is read

However a model file is written, only the transition constraint of its machine mentions next forms,
no two variables share a name, and every name is a word.
-/

namespace Lasso

set_option autoImplicit false

namespace Machine

open Encoding

variable {m : Machine} {e : Encoding} (wf : e.WellFormed) (h : m.Formed e) {l : Lit}

include wf h

theorem addInit_formed (hl : e.Rests (Origin.IsForm false) l) :
    (m.addInit l e).1.Formed (m.addInit l e).2 := by
  have hle := (and_remakes wf (h.init.mem wf) (hl.mem wf)).grows
  have hkept := h.of_le wf hle
  exact ⟨join_rests wf Graph.and_mixes h.init hl, hkept.invar, hkept.trans, hkept.fairness⟩

theorem addInvar_formed (hl : e.Rests (Origin.IsForm false) l) :
    (m.addInvar l e).1.Formed (m.addInvar l e).2 := by
  have hle := (and_remakes wf (h.invar.mem wf) (hl.mem wf)).grows
  have hkept := h.of_le wf hle
  exact ⟨hkept.init, join_rests wf Graph.and_mixes h.invar hl, hkept.trans, hkept.fairness⟩

theorem addTrans_formed (hl : e.Rests (Origin.IsForm true) l) :
    (m.addTrans l e).1.Formed (m.addTrans l e).2 := by
  have hle := (and_remakes wf (h.trans.mem wf) (hl.mem wf)).grows
  have hkept := h.of_le wf hle
  exact ⟨hkept.init, hkept.invar, join_rests wf Graph.and_mixes h.trans hl, hkept.fairness⟩

omit wf in
theorem addFairness_formed (hl : e.Rests (Origin.IsForm false) l) : (m.addFairness l).Formed e where
  init := h.init
  invar := h.invar
  trans := h.trans
  fairness k hk := by
    rcases Array.mem_push.1 hk with hk | rfl
    · exact h.fairness k hk
    · exact hl

end Machine

namespace Model

open Encoding SExpr

theorem Addition.formed {p : Bool} {add : Machine → Lit → StateM Encoding Machine}
    (hadd : Addition p add) {m : Machine} {l : Lit} {e : Encoding} (wf : e.WellFormed)
    (h : m.Formed e) (hl : e.Rests (Origin.IsForm p) l) : (add m l e).1.Formed (add m l e).2 := by
  cases hadd with
  | init => exact m.addInit_formed wf h hl
  | invar => exact m.addInvar_formed wf h hl
  | trans => exact m.addTrans_formed wf h hl
  | fairness => exact m.addFairness_formed h hl

theorem Addition.vars {p : Bool} {add : Machine → Lit → StateM Encoding Machine}
    (hadd : Addition p add) (m : Machine) (l : Lit) (e : Encoding) :
    (add m l e).2.vars = e.vars := by
  cases hadd <;> rfl

/-- Names that tell variables apart and are words. -/
structure Worded (e : Encoding) : Prop extends e.Named where
  word : ∀ x ∈ e.vars, ∀ c ∈ x.name.toList, Token.isWordChar c = true

theorem Worded.of_vars {e e' : Encoding} (h : Worded e) (hvars : e'.vars = e.vars) : Worded e' :=
  ⟨h.toNamed.of_vars hvars, hvars ▸ h.word⟩

theorem Worded.declare {e : Encoding} (h : Worded e) {name : String}
    (hname : ∀ c ∈ name.toList, Token.isWordChar c = true) (isInput : Bool) :
    Worded (declare isInput name e).2 := by
  refine ⟨declare_named h.toNamed isInput name, fun x hx => ?_⟩
  rcases declare_cases isInput name e with ⟨err, herr⟩ | ⟨y, -, rfl, -, -, hvars⟩
  · rw [herr] at hx
    exact h.word x hx
  · rw [hvars, Array.mem_push] at hx
    rcases hx with hx | rfl
    · exact h.word x hx
    · exact hname

/-- What has been read of a text at any time. -/
structure Reading.Sound (r : Reading) : Prop extends r.WellFormed where
  formed : r.machine.Formed r.encoding
  worded : Worded r.encoding

theorem Step.sound {s : Source} {ts : List Term} (hts : s.terms = .ok ts) {r r' : Reading}
    (hstep : Step ts r r') (h : r.Sound) : r'.Sound := by
  have wf' := hstep.wellFormed h.toWellFormed
  have wf := h.encoding
  cases hstep with
  | declare hname isInput =>
    obtain ⟨-, hle⟩ := declare_grows wf isInput _
    exact ⟨wf', h.formed.of_le wf hle, h.worded.declare (hname.word hts).2 isInput⟩
  | @convert t _ p =>
    have hatt := (condition_attempts wf p t).1
    exact ⟨wf', h.formed.of_le wf hatt.grows, h.worded.of_vars hatt.vars⟩
  | @constrain t _ p add hadd l hl =>
    have hatt := (condition_attempts wf p t).1
    have hformed := hadd.formed hatt.wf (h.formed.of_le wf hatt.grows) (condition_rests wf p t l hl)
    exact ⟨wf', hformed, h.worded.of_vars ((hadd.vars _ _ _).trans hatt.vars)⟩
  | tabulate table => exact ⟨wf', h.formed, h.worded⟩
  | specify name f =>
    exact ⟨wf', ⟨h.formed.init, h.formed.invar, h.formed.trans, h.formed.fairness⟩, h.worded⟩
  | invariant name l =>
    exact ⟨wf', ⟨h.formed.init, h.formed.invar, h.formed.trans, h.formed.fairness⟩, h.worded⟩
  | blame _ => exact ⟨wf', h.formed, h.worded⟩

theorem sound_start (t : Table) : ({ table := t } : Reading).Sound where
  toWellFormed := wellFormed_start t
  formed := Machine.formed_empty _
  worded := ⟨named_empty, fun x hx => by simp [EmptyCollection.emptyCollection, empty] at hx⟩

/-- A machine with constraints that are written as they should be, over variables that are told
apart by words. -/
theorem accepted_of_read {s : Source} {t : Table} {M : Model} (h : (read s t).1 = .ok M) :
    M.WellFormed ∧ M.machine.Formed M.encoding ∧ Worded M.encoding := by
  obtain ⟨r, hr, hencoding, hmachine⟩ :=
    holds_of_read h (sound_start t) fun ts hts _ _ hstep => hstep.sound hts
  rw [← hencoding, ← hmachine]
  exact ⟨wellFormed_of_read h, hr.formed, hr.worded⟩

end Model

end Lasso
