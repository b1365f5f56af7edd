import Lasso.Proofs.Machine.Path
import Lasso.Proofs.Machine.Reading

/-! # Models that were read are well-formed

Whatever a model file says, its variables are declared in a well-formed encoding and its constraints
are over them: the transition constraint over current and next forms and all others over current
forms.
-/

namespace Lasso

set_option autoImplicit false

namespace Encoding

theorem and_current {e : Encoding} (wf : e.WellFormed) {a b : Lit} (ha : e.Current a)
    (hb : e.Current b) : (onGraph (Graph.and a b) e).2.Current (onGraph (Graph.and a b) e).1 :=
  Denotes.current (φ := fun now => e.holds a now now && e.holds b now now)
    (onGraph_builds Graph.and_computes wf ha hb).denotes

theorem and_untimed {e : Encoding} (wf : e.WellFormed) {a b : Lit} (ha : e.Untimed a)
    (hb : e.Untimed b) : (onGraph (Graph.and a b) e).2.Untimed (onGraph (Graph.and a b) e).1 :=
  Denotes.untimed (φ := fun now next => e.holds a now next && e.holds b now next)
    (onGraph_builds Graph.and_computes wf ha hb).denotes

/-- A condition is an expression over the variables, and only over their values now if the next
forms are not permitted. -/
theorem condition_untimed {α : Type} {e : Encoding} (wf : e.WellFormed) {p : Bool} {x : SExpr α}
    {l : Lit} (h : ((condition p x).run e).1 = .ok l) :
    ((condition p x).run e).2.Untimed l ∧ (p = false → ((condition p x).run e).2.Current l) := by
  obtain ⟨hattempts, haccepts⟩ := condition_attempts wf p x
  have hdenotes := hattempts.denotes l h
  refine ⟨Denotes.untimed (φ := fun now next => e.conditionValue now next x) hdenotes, ?_⟩
  rintro rfl
  refine Denotes.current (φ := fun now => e.conditionValue now now x) (hdenotes.congr fun V => ?_)
  exact conditionValue_next x (haccepts l h) V.now V.next V.now

theorem holds_and {e : Encoding} (wf : e.WellFormed) {a b : Lit} (ha : e.Untimed a)
    (hb : e.Untimed b) (now next : Letter) :
    (onGraph (Graph.and a b) e).2.holds (onGraph (Graph.and a b) e).1 now next =
      (e.holds a now next && e.holds b now next) :=
  (onGraph_builds Graph.and_computes wf ha hb).denotes.holds_eq now next

end Encoding

namespace Machine

open Encoding

variable {m : Machine} {e : Encoding} {l : Lit} (wf : e.WellFormed) (hm : m.Over e)

include wf hm

theorem addInit_initial_iff (hl : e.Untimed l) (a : Letter) :
    (m.addInit l e).1.Initial (m.addInit l e).2 a ↔ m.Initial e a ∧ e.holds l a a := by
  change (onGraph (Graph.and m.init l) e).2.holds (onGraph (Graph.and m.init l) e).1 a a = true ↔ _
  rw [holds_and wf hm.init.untimed hl, Bool.and_eq_true]
  exact Iff.rfl

theorem addInvar_allowed_iff (hl : e.Untimed l) (a : Letter) :
    (m.addInvar l e).1.Allowed (m.addInvar l e).2 a ↔ m.Allowed e a ∧ e.holds l a a := by
  change (onGraph (Graph.and m.invar l) e).2.holds (onGraph (Graph.and m.invar l) e).1 a a = true ↔ _
  rw [holds_and wf hm.invar.untimed hl, Bool.and_eq_true]
  exact Iff.rfl

theorem addTrans_moves_iff (hl : e.Untimed l) (a b : Letter) :
    (m.addTrans l e).1.Moves (m.addTrans l e).2 a b ↔ m.Moves e a b ∧ e.holds l a b := by
  change (onGraph (Graph.and m.trans l) e).2.holds (onGraph (Graph.and m.trans l) e).1 a b = true ↔ _
  rw [holds_and wf hm.trans hl, Bool.and_eq_true]
  exact Iff.rfl

theorem addTrans_initial_iff (hl : e.Untimed l) (a : Letter) :
    (m.addTrans l e).1.Initial (m.addTrans l e).2 a ↔ m.Initial e a :=
  hm.initial_iff wf (onGraph_builds Graph.and_computes wf hm.trans hl).grows a

end Machine

namespace Model

open Encoding SExpr

structure WellFormed (M : Model) : Prop where
  encoding : M.encoding.WellFormed
  machine : M.machine.Over M.encoding

/-- What has been read is well-formed at all times. -/
structure Reading.WellFormed (r : Reading) : Prop where
  encoding : r.encoding.WellFormed
  machine : r.machine.Over r.encoding

theorem Reading.WellFormed.grow {r : Reading} (h : r.WellFormed) {e : Encoding}
    (wf : e.WellFormed) (hle : r.encoding ≤ e) : ({ r with encoding := e } : Reading).WellFormed :=
  ⟨wf, h.machine.of_le h.encoding hle⟩

theorem readCondition_spec (p : Bool) (t : Term) {r : Reading} (h : r.WellFormed) :
    (readCondition p t r).2.WellFormed ∧
      ∀ l, (readCondition p t r).1 = some l → (readCondition p t r).2.encoding.Untimed l ∧
        (p = false → (readCondition p t r).2.encoding.Current l) := by
  have hatt := (condition_attempts h.encoding p t).1
  have huntimed := fun l => condition_untimed (p := p) (x := t) (l := l) h.encoding
  rw [readCondition_eq]
  cases hr : (condition p t).run r.encoding with
  | mk result e =>
    rw [hr] at hatt huntimed
    have hgood := h.grow hatt.wf hatt.grows
    cases result with
    | error err => exact ⟨⟨hgood.encoding, hgood.machine⟩, fun l hl => by cases hl⟩
    | ok m =>
      refine ⟨hgood, fun l hl => ?_⟩
      cases hl
      exact huntimed m rfl

theorem addInit_keeps {m : Machine} {l : Lit} {e : Encoding} (wf : e.WellFormed) (h : m.Over e)
    (hl : e.Current l) :
    (m.addInit l e).2.WellFormed ∧ (m.addInit l e).1.Over (m.addInit l e).2 := by
  have hand := onGraph_builds Graph.and_computes wf h.init hl
  have hkept := h.of_le wf hand.grows
  exact ⟨hand.wf, ⟨and_current wf h.init hl, hkept.invar, hkept.trans, hkept.fairness⟩⟩

theorem addInvar_keeps {m : Machine} {l : Lit} {e : Encoding} (wf : e.WellFormed) (h : m.Over e)
    (hl : e.Current l) :
    (m.addInvar l e).2.WellFormed ∧ (m.addInvar l e).1.Over (m.addInvar l e).2 := by
  have hand := onGraph_builds Graph.and_computes wf h.invar hl
  have hkept := h.of_le wf hand.grows
  exact ⟨hand.wf, ⟨hkept.init, and_current wf h.invar hl, hkept.trans, hkept.fairness⟩⟩

theorem addTrans_keeps {m : Machine} {l : Lit} {e : Encoding} (wf : e.WellFormed) (h : m.Over e)
    (hl : e.Untimed l) :
    (m.addTrans l e).2.WellFormed ∧ (m.addTrans l e).1.Over (m.addTrans l e).2 := by
  have hand := onGraph_builds Graph.and_computes wf h.trans hl
  have hkept := h.of_le wf hand.grows
  exact ⟨hand.wf, ⟨hkept.init, hkept.invar, and_untimed wf h.trans hl, hkept.fairness⟩⟩

theorem addFairness_over {m : Machine} {l : Lit} {e : Encoding} (h : m.Over e)
    (hl : e.Current l) : (m.addFairness l).Over e where
  init := h.init
  invar := h.invar
  trans := h.trans
  fairness k hk := by
    rcases Array.mem_push.1 hk with hk | rfl
    · exact h.fairness k hk
    · exact hl

theorem Addition.keeps {p : Bool} {add : Machine → Lit → StateM Encoding Machine}
    (hadd : Addition p add) {m : Machine} {l : Lit} {e : Encoding} (wf : e.WellFormed)
    (h : m.Over e) (hl : e.Untimed l) (hcurrent : p = false → e.Current l) :
    (add m l e).2.WellFormed ∧ (add m l e).1.Over (add m l e).2 := by
  cases hadd with
  | init => exact addInit_keeps wf h (hcurrent rfl)
  | invar => exact addInvar_keeps wf h (hcurrent rfl)
  | trans => exact addTrans_keeps wf h hl
  | fairness => exact ⟨wf, addFairness_over h (hcurrent rfl)⟩

theorem Step.wellFormed {ts : List Term} {r r' : Reading} (hstep : Step ts r r')
    (h : r.WellFormed) : r'.WellFormed := by
  cases hstep with
  | declare _ isInput =>
    obtain ⟨wf, hle⟩ := declare_grows h.encoding isInput _
    exact h.grow wf hle
  | @convert t _ p =>
    have hatt := (condition_attempts h.encoding p t).1
    exact h.grow hatt.wf hatt.grows
  | @constrain t _ p add hadd l hl =>
    have hatt := (condition_attempts h.encoding p t).1
    obtain ⟨huntimed, hcurrent⟩ := condition_untimed h.encoding hl
    obtain ⟨wf, hover⟩ := hadd.keeps hatt.wf (h.machine.of_le h.encoding hatt.grows) huntimed
      hcurrent
    exact ⟨wf, hover⟩
  | tabulate table => exact ⟨h.encoding, h.machine⟩
  | specify name f =>
    exact ⟨h.encoding, h.machine.init, h.machine.invar, h.machine.trans, h.machine.fairness⟩
  | invariant name l =>
    exact ⟨h.encoding, h.machine.init, h.machine.invar, h.machine.trans, h.machine.fairness⟩
  | blame _ => exact ⟨h.encoding, h.machine⟩

/-- A part of the reader keeps what has been read well-formed. -/
def Keeps {α : Type} (m : Read α) : Prop := ∀ r : Reading, r.WellFormed → (m r).2.WellFormed

theorem Runs.keeps {α : Type} {ts : List Term} {m : Read α} (h : Runs ts m) : Keeps m :=
  fun r hr => (h r).keep Step.wellFormed hr

theorem Keeps.forM {α : Type} {f : α → Read Unit} (hf : ∀ a, Keeps (f a)) (as : List α) :
    Keeps (as.forM f) := by
  induction as with
  | nil => exact fun _ h => h
  | cons a as ih => exact fun r h => ih _ (hf a r h)

theorem report_keeps (span : Span) (message : String) : Keeps (report span message) :=
  fun _ h => ⟨h.encoding, h.machine⟩

theorem onTable_keeps {α : Type} (m : StateM Table α) : Keeps (onTable m) :=
  fun _ h => ⟨h.encoding, h.machine⟩

theorem readVariables_keeps (t : Term) : Keeps (readVariables t) :=
  (runs_readVariables (.top List.mem_cons_self : Occurs [t] t)).keeps

theorem readDeclaration_keeps (t : Term) : Keeps (readDeclaration t) :=
  (runs_readDeclaration (.top List.mem_cons_self : Occurs [t] t)).keeps

theorem current_truth {e : Encoding} (wf : e.WellFormed) : e.Current Graph.truth :=
  Denotes.current (φ := fun _ => true) (denotes_truth wf)

theorem wellFormed_start (t : Table) : ({ table := t } : Reading).WellFormed where
  encoding := Encoding.wellFormed_empty
  machine :=
    have htruth := current_truth Encoding.wellFormed_empty
    ⟨htruth, htruth, htruth.untimed, by simp⟩

/-- Every model that is read is well-formed. -/
theorem wellFormed_of_read {s : Source} {t : Table} {M : Model} (h : (read s t).1 = .ok M) :
    M.WellFormed := by
  obtain ⟨r, hr, hencoding, hmachine⟩ :=
    holds_of_read h (P := Reading.WellFormed) (wellFormed_start t) fun _ _ _ _ => Step.wellFormed
  exact ⟨hencoding ▸ hr.encoding, hencoding ▸ hmachine ▸ hr.machine⟩

end Model

end Lasso
